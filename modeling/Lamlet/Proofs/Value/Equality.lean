import Lamlet.Proofs.Eval.Identity

/-!
# Equality across kinds of values

Two texts are compared as texts.  In all other cases each of the two values is compared by
a key of its own: a function by its identity, and any other value by the place of the
number that it stands for; a value that stands for no number has no key.  Thus it does not
matter which value is on the left, and where no texts are involved equality is transitive.

## Main definitions

* `Value.isText`, `Value.key?` — texts, and what a value is compared by.
* `SoundComparison` — what one expects of an equality of values.

## Main results

* `Value.looselyEqual_iff_key` — values are equal if they have the same key, two texts
  apart.
* `soundComparison_looselyEqual` — **equality across kinds is a sound comparison.**
-/

namespace Lamlet

/-! ### Keys -/

namespace Value

/-- Whether the value is a text. -/
def isText : Value → Bool
  | text _ => true
  | _ => false

theorem isText_iff {v : Value} : v.isText = true ↔ ∃ s, v = text s := by
  cases v <;> simp [isText]

/-- What a value is compared by: the identity of a function, and the place of the number
that any other value stands for. -/
def key? (v : Value) : Option (Nat ⊕ Int) :=
  match v.identity? with
  | some n => some (.inl n)
  | none => v.toNumber.rank?.map .inr

theorem key?_eq_inl_iff {v : Value} {n : Nat} : v.key? = some (.inl n) ↔ v.identity? = some n := by
  unfold key?
  cases v.identity? <;> simp

theorem key?_of_plain {v : Value} (h : v.identity? = none) :
    v.key? = v.toNumber.rank?.map .inr := by
  rw [key?, h]

theorem key?_eq_none_iff {v : Value} (h : v.identity? = none) :
    v.key? = none ↔ v.toNumber = .nan := by
  rw [key?_of_plain h, Option.map_eq_none_iff, Number.rank?_eq_none_iff]

/-- Two truth values are equal if they stand for the same number. -/
theorem eqv_toNumber_boolean (a b : Bool) :
    (boolean a).toNumber.eqv (boolean b).toNumber = (a == b) := by
  revert a b
  decide +kernel

/-- Values that are not functions are compared as numbers, two texts apart. -/
theorem looselyEqual_of_plain {v w : Value} (hv : v.identity? = none) (hw : w.identity? = none)
    (h : ¬ (v.isText = true ∧ w.isText = true)) :
    v.looselyEqual w = v.toNumber.eqv w.toNumber := by
  cases v with
  | closure f => cases hv
  | host f => cases hv
  | number x => cases w <;> first | rfl | cases hw
  | text s =>
    cases w with
    | text t => exact absurd ⟨rfl, rfl⟩ h
    | _ => first | rfl | cases hw
  | boolean a =>
    cases w with
    | boolean b => exact (eqv_toNumber_boolean a b).symm
    | _ => first | rfl | cases hw

/-- A function is compared by its identity. -/
theorem looselyEqual_of_identity? {v w : Value} (h : v.identity? ≠ none ∨ w.identity? ≠ none) :
    v.looselyEqual w = true ↔ v.identity? = w.identity? := by
  cases v <;> cases w <;> simp_all [looselyEqual, identity?]

/-- **Values that are not both texts are compared by their keys.**  Functions have their identity
for a key and all other values the rank of their number, so a function has no key in common with
anything else, and `nan` has none at all. -/
theorem looselyEqual_iff_key {v w : Value} (h : ¬ (v.isText = true ∧ w.isText = true)) :
    v.looselyEqual w = true ↔ v.key? ≠ none ∧ v.key? = w.key? := by
  cases hv : v.identity? with
  | none =>
    cases hw : w.identity? with
    | none =>
      -- the key of a value that is no function is where its number stands in the order
      have hinj : (v.key? = w.key?) ↔ v.toNumber.rank? = w.toNumber.rank? := by
        rw [key?_of_plain hv, key?_of_plain hw]
        exact (Option.map_injective fun _ _ => Sum.inr.inj).eq_iff
      rw [looselyEqual_of_plain hv hw h, Number.eqv_iff, hinj, ne_eq, ne_eq, key?_eq_none_iff hv]
    | some m =>
      rw [looselyEqual_of_identity? (.inr (by simp [hw])), key?_eq_inl_iff.2 hw, key?_eq_inl_iff,
        hv, hw]
      simp
  | some n =>
    -- the key of a function is its identity
    have hkey := key?_eq_inl_iff.2 hv
    rw [looselyEqual_of_identity? (.inl (by simp [hv])), hkey, hv, eq_comm, ← key?_eq_inl_iff,
      eq_comm]
    simp

/-- Two texts are equal only if they are the same. -/
theorem looselyEqual_iff_eq_of_isText {v w : Value} (hv : v.isText = true) (hw : w.isText = true) :
    v.looselyEqual w = true ↔ v = w := by
  obtain ⟨s, rfl⟩ := isText_iff.1 hv
  obtain ⟨t, rfl⟩ := isText_iff.1 hw
  simp [looselyEqual]

/-! ### The laws -/

theorem looselyEqual_symm (v w : Value) : v.looselyEqual w = w.looselyEqual v := by
  rw [Bool.eq_iff_iff]
  by_cases h : v.isText = true ∧ w.isText = true
  · rw [looselyEqual_iff_eq_of_isText h.1 h.2, looselyEqual_iff_eq_of_isText h.2 h.1, eq_comm]
  · rw [looselyEqual_iff_key h, looselyEqual_iff_key fun hboth => h hboth.symm]
    constructor
    · rintro ⟨hne, heq⟩
      exact ⟨heq ▸ hne, heq.symm⟩
    · rintro ⟨hne, heq⟩
      exact ⟨heq ▸ hne, heq.symm⟩

theorem looselyEqual_self_iff {v : Value} : v.looselyEqual v = true ↔ v ≠ .number .nan := by
  cases v with
  | number x =>
    show x.eqv x = true ↔ _
    simp [Number.eqv_iff]
  | _ => simp [looselyEqual, identity?]

/-- The outer two may not both be texts: two texts can be equal to one number. -/
theorem looselyEqual_trans {u v w : Value} (h : ¬ (u.isText = true ∧ w.isText = true))
    (huv : u.looselyEqual v = true) (hvw : v.looselyEqual w = true) :
    u.looselyEqual w = true := by
  by_cases hleft : u.isText = true ∧ v.isText = true
  · rwa [(looselyEqual_iff_eq_of_isText hleft.1 hleft.2).1 huv]
  by_cases hright : v.isText = true ∧ w.isText = true
  · rwa [← (looselyEqual_iff_eq_of_isText hright.1 hright.2).1 hvw]
  -- nowhere are two texts compared
  rw [looselyEqual_iff_key hleft] at huv
  rw [looselyEqual_iff_key hright] at hvw
  rw [looselyEqual_iff_key h]
  exact ⟨huv.1, huv.2.trans hvw.2⟩

/-- A function equals only what has its identity. -/
theorem looselyEqual_iff_of_identity? {v w : Value} {n : Nat} (h : v.identity? = some n) :
    v.looselyEqual w = true ↔ w.identity? = some n := by
  rw [looselyEqual_of_identity? (.inl (by simp [h])), h, eq_comm]

/-- A text equals a number or a truth value if it can be read as that number. -/
theorem looselyEqual_text_iff {s : String} {v : Value} (hv : v.identity? = none)
    (htext : v.isText = false) :
    (text s).looselyEqual v = true ↔
      (text s).toNumber ≠ .nan ∧ (text s).toNumber.eqv v.toNumber = true := by
  rw [looselyEqual_of_plain rfl hv (by simp [htext])]
  exact (and_iff_right_of_imp fun heqv => (Number.eqv_iff.1 heqv).1).symm

end Value

/-- Where functions are told apart by their identities, a function equals only itself. -/
theorem Store.Apart.looselyEqual_iff_eq {s : Store} (h : s.Apart) {v u : Value} (hv : s.Holds v)
    (hu : s.Holds u) (hfunction : v.identity? ≠ none) : v.looselyEqual u = true ↔ u = v := by
  obtain ⟨n, hn⟩ := Option.ne_none_iff_exists'.1 hfunction
  rw [Value.looselyEqual_iff_of_identity? hn]
  constructor
  · exact fun hun => h.unique u v n hu hv hun hn
  · rintro rfl
    exact hn

/-- What one expects of an equality of values. -/
structure SoundComparison (equal : Value → Value → Bool) : Prop where
  /-- It does not matter which value is on the left. -/
  symm : ∀ v w, equal v w = equal w v
  /-- Every value equals itself, except for the one that is not a number. -/
  refl : ∀ v, equal v v = true ↔ v ≠ .number .nan
  /-- It is transitive, unless the outer two values are texts. -/
  trans : ∀ u v w, ¬ (u.isText = true ∧ w.isText = true) →
    equal u v = true → equal v w = true → equal u w = true
  /-- A function equals just what has the same identity, thus no other kind of value. -/
  function : ∀ v w n, v.identity? = some n → (equal v w = true ↔ w.identity? = some n)
  /-- Of all values in a world that a session reaches, a function equals only itself. -/
  itself : ∀ w₀ w : World, w₀.Fresh → w₀.store.Apart → World.Runs w₀ w →
    ∀ v u, w.store.Holds v → w.store.Holds u → v.identity? ≠ none → (equal v u = true ↔ u = v)
  /-- A text equals a number or a truth value just if it can be read as that number. -/
  text : ∀ s v, v.identity? = none → v.isText = false →
    (equal (.text s) v = true ↔
      (Value.text s).toNumber ≠ .nan ∧ (Value.text s).toNumber.eqv v.toNumber = true)

/-- **Equality across kinds is a sound comparison**, whatever kinds are mixed. -/
theorem soundComparison_looselyEqual : SoundComparison Value.looselyEqual where
  symm := Value.looselyEqual_symm
  refl _ := Value.looselyEqual_self_iff
  trans _ _ _ := Value.looselyEqual_trans
  function _ _ _ := Value.looselyEqual_iff_of_identity?
  itself _ _ hfresh hapart hruns _ _ := (hruns.apart hfresh hapart).looselyEqual_iff_eq
  text _ _ := Value.looselyEqual_text_iff

/-- The world after a program that makes the same function twice. -/
def World.twins : World :=
  (run false 10 (.block
    [.assign (.var "f") (.lambda ["x"] (.var "x")), .assign (.var "g") (.lambda ["x"] (.var "x"))])
    Store.globalScope .initial).2

/-- One of the two functions, by its identity. -/
def Value.twin (identity : Nat) : Value := .closure ⟨identity, ["x"], .var "x", 0⟩

theorem soundComparison_looselyEqual_twins :
    World.initial.Fresh ∧ World.initial.store.Apart ∧ World.Runs .initial .twins ∧
    World.twins.store.Holds (.twin 2) ∧ World.twins.store.Holds (.twin 3) ∧
    ((Value.twin 2).looselyEqual (.twin 3) = true ↔ Value.twin 3 = .twin 2) ∧
    (Value.text "1.0 ").looselyEqual (.number .one) = true ∧
    (Value.text "1.0 ").looselyEqual (.boolean true) = true := by
  have hruns : World.Runs .initial .twins := .run _ _ _ .none
  have hfirst : World.twins.store.Holds (.twin 2) := ⟨0, "f", Assoc.mem_of_lookup (by rfl)⟩
  have hsecond : World.twins.store.Holds (.twin 3) := ⟨0, "g", Assoc.mem_of_lookup (by rfl)⟩
  have hnumber : (Value.text "1.0 ").looselyEqual (.number .one) = true :=
    (soundComparison_looselyEqual.text _ _ rfl rfl).2 (by decide +kernel)
  have htrue : (Value.number .one).looselyEqual (.boolean true) = true := by decide +kernel
  exact ⟨World.fresh_initial, World.apart_initial, hruns, hfirst, hsecond,
    soundComparison_looselyEqual.itself _ _ World.fresh_initial World.apart_initial hruns _ _ hfirst
      hsecond (by simp [Value.twin, Value.identity?]), hnumber,
    soundComparison_looselyEqual.trans _ _ _ (by simp [Value.isText]) hnumber htrue⟩

end Lamlet
