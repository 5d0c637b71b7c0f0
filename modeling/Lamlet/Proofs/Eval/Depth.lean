import Lamlet.Proofs.Eval.Lockstep
import Lamlet.Report

/-!
# Depth limits

A limit on the number of frames only cuts an evaluation off.  A run that does not meet its
limit is the same under every larger one, and a run that meets it has done a part of what
it would have done under a larger one.

## Main definitions

* `World.hostCalls` — the calls of host functions so far.
* `depthLockstep` — two runs that differ in their limits only.

## Main results

* `run_of_le` — **a depth limit only cuts evaluation off.**
-/

namespace Lamlet

/-! ### What a log tells -/

/-- The call of a host function that an event is, if it is one. -/
def Event.hostCall? : Event → Option (HostFunction × List Value)
  | hostCall f arguments => some (f, arguments)
  | _ => none

/-- The calls of host functions so far, with their arguments. -/
def World.hostCalls (w : World) : List (HostFunction × List Value) :=
  w.log.toList.filterMap Event.hostCall?

/-- What a shorter log tells of the output is the start of what a longer one tells. -/
theorem World.written_of_prefix {w w' : World} (h : w.log.toList <+: w'.log.toList)
    (colored : Bool) : ∃ more, w'.written colored = w.written colored ++ more := by
  obtain ⟨events, hevents⟩ := h
  refine ⟨Event.textOf colored events, ?_⟩
  rw [written, ← hevents, Event.textOf, List.map_append, String.join_append]
  rfl

theorem World.hostCalls_of_prefix {w w' : World} (h : w.log.toList <+: w'.log.toList) :
    w.hostCalls <+: w'.hostCalls :=
  h.filterMap _

/-! ### Two limits -/

/-- Two untraced runs of any term, compared in all they do.  Only running out of frames
makes the first one stop early. -/
def depthLockstep : Lockstep where
  tracing := false
  node _ := True
  compared _ := true
  stop e := e = .exhausted
  pass _ := True
  event _ := True
  undefined _ := trivial
  notAFunction _ := trivial
  notAssignable _ := trivial
  exhausted := trivial
  missing _ := trivial
  operator _ _ := trivial
  output _ := trivial
  hostCall _ := trivial
  step _ _ h := absurd h Bool.false_ne_true
  callee h := absurd h Bool.false_ne_true

theorem depthLockstep_fit (t : Term) : depthLockstep.Fit t :=
  t.everywhere_of_occurs fun _ _ => trivial

theorem depthLockstep_view (w : World) : depthLockstep.view w = w.log.toList :=
  List.filter_eq_self.2 fun _ _ => rfl

/-- Worlds that are alike in all their events are the same. -/
theorem eq_of_depthLockstep_alike {w w' : World} (h : depthLockstep.Alike w w') : w = w' := by
  have hlog := h.view
  rw [depthLockstep_view, depthLockstep_view, Array.toList_inj] at hlog
  cases w
  cases w'
  simp only [World.mk.injEq]
  exact ⟨h.store, hlog⟩

/-- The outcomes under two limits: the same one, or the smaller limit was met after a part
of the log. -/
theorem evaluate_of_le {n m : Nat} (h : n ≤ m) (t : Term) (scope : ScopeId) (w : World) :
    evaluate false m t scope w = evaluate false n t scope w ∨
    ∃ w', evaluate false n t scope w = .error .exhausted w' ∧
      w'.log.toList <+: (Run.worldOf (evaluate false m t scope w)).log.toList := by
  -- the two limits are in lockstep, and only the run with the smaller one may stop
  have hwithin : depthLockstep.Within n m :=
    (Nat.eq_or_lt_of_le h).imp_right fun hlt => ⟨hlt, rfl⟩
  have hgood : depthLockstep.Good w :=
    ⟨fun _ _ f _ => depthLockstep_fit f.body, fun _ _ => trivial⟩
  have hagree := (Lockstep.inStep_evaluate hwithin t scope (depthLockstep_fit t)).agree w w
    (depthLockstep.alike_refl w) hgood
  generalize evaluate false m t scope w = r at hagree
  generalize hfirst : evaluate depthLockstep.tracing n t scope w = r' at hagree
  rw [show evaluate false n t scope w = r' from hfirst]
  cases hagree with
  | value halike => exact .inl (by rw [eq_of_depthLockstep_alike halike])
  | halt halike => exact .inl (by rw [eq_of_depthLockstep_alike halike])
  | @stopped e w' r hstop hview =>
    rw [depthLockstep_view, depthLockstep_view] at hview
    exact .inr ⟨w', by rw [hstop], hview⟩

/-- **A depth limit only cuts evaluation off.**  A run that ends otherwise than by meeting
its limit ends in the same way under every larger limit, with the same log and the same
scopes.  What a run did that meets its limit is the start of what it does under a larger
one. -/
theorem run_of_le {n m : Nat} (h : n ≤ m) (program : Term) (scope : ScopeId) (w : World) :
    ((run false n program scope w).1 ≠ .error { cause := .stackExhausted } →
      run false m program scope w = run false n program scope w) ∧
    ((run false n program scope w).1 = .error { cause := .stackExhausted } →
      (run false n program scope w).2.log.toList <+: (run false m program scope w).2.log.toList ∧
      (∀ colored, ∃ more, (run false m program scope w).2.written colored
        = (run false n program scope w).2.written colored ++ more) ∧
      (run false n program scope w).2.hostCalls <+: (run false m program scope w).2.hostCalls) := by
  rcases evaluate_of_le h program scope w with hsame | ⟨w', hmet, hlog⟩
  · -- nothing differs, whether the smaller limit was met or not
    have hrun : run false m program scope w = run false n program scope w := by
      rw [run_eq, run_eq, hsame]
    rw [hrun]
    exact ⟨fun _ => rfl, fun _ => ⟨List.prefix_refl _, fun _ => ⟨"", by simp⟩, List.prefix_refl _⟩⟩
  · -- the smaller limit was met, after a part of what the other run does
    have hrun : run false n program scope w = (.error { cause := .stackExhausted }, w') := by
      rw [run_eq, hmet]
      rfl
    have hworld : (run false m program scope w).2
        = Run.worldOf (evaluate false m program scope w) :=
      congrArg Prod.snd (run_eq false m program scope w)
    rw [← hworld] at hlog
    rw [hrun]
    exact ⟨fun hne => absurd rfl hne, fun _ =>
      ⟨hlog, World.written_of_prefix hlog, World.hostCalls_of_prefix hlog⟩⟩

/-- A program that writes something, and then something else from inside a call. -/
def writingSample : Term :=
  .block
    [.call (.var "print") [.text "a"],
      .call (.lambda [] (.call (.var "print") [.text "b"])) []]

theorem run_of_le_writingSample :
    (run false 4 writingSample Store.globalScope .initial).1
      = .error { cause := .stackExhausted } ∧
    (run false 4 writingSample Store.globalScope .initial).2.written false = "a" ∧
    (run false 9 writingSample Store.globalScope .initial).2.written false = "ab" ∧
    ((run false 4 writingSample Store.globalScope .initial).1
        ≠ .error { cause := .stackExhausted } →
      run false 9 writingSample Store.globalScope .initial
        = run false 4 writingSample Store.globalScope .initial) ∧
    ((run false 4 writingSample Store.globalScope .initial).1
        = .error { cause := .stackExhausted } →
      (run false 4 writingSample Store.globalScope .initial).2.log.toList
        <+: (run false 9 writingSample Store.globalScope .initial).2.log.toList ∧
      (∀ colored, ∃ more, (run false 9 writingSample Store.globalScope .initial).2.written colored
        = (run false 4 writingSample Store.globalScope .initial).2.written colored ++ more) ∧
      (run false 4 writingSample Store.globalScope .initial).2.hostCalls
        <+: (run false 9 writingSample Store.globalScope .initial).2.hostCalls) :=
  ⟨by rfl, by decide +kernel, by decide +kernel, run_of_le (by decide) _ _ _⟩

end Lamlet
