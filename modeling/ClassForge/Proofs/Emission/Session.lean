import ClassForge.Proofs.Emission.Accounting
import ClassForge.Proofs.Emission.LocalAllocation

/-!
# Uses of an emitter

Whoever writes code with an emitter also takes local slots into use, releases them, notes accesses
to others and interns constants. None of this writes an instruction or moves the operand stack, so
it may stand anywhere between operations.

* `Emitter.Use` — an operation on the body under construction, on its tracker or on the constants;
* `Use.FitsAll` — the operations among them fit, and the operand stack is left to these;
* `Emitter.Session` — steps of an emitter, with local slots reserved in between;
* `exists_session_of_applyAll` — **PROVED**: uses that fit are a session;
* `Session.exists_complete` — **PROVED**: a session from the start leads to a complete body.
-/

namespace ClassForge

open ConstantPool

/-! ### Reserved slots -/

/-- How a tracker may change without the operand stack: more local slots may be declared. -/
structure Tracker.Reserves (t t' : Tracker) : Prop where
  depth : t'.depth = t.depth
  maxDepth : t'.maxDepth = t.maxDepth
  locals : t.maxLocals ≤ t'.maxLocals
  word : t.maxLocals ≤ wordMax → t'.maxLocals ≤ wordMax

namespace Tracking

variable {op : Tracking} {t t' : Tracker} {answer : Option Nat}

/-- The operations that leave the operand stack alone. -/
def LeavesStack : Tracking → Prop
  | .push _ | .pop _ => False
  | _ => True

theorem depth_of_apply (h : op.apply t = .ok (answer, t')) (hop : op.LeavesStack) :
    t'.depth = t.depth ∧ t'.maxDepth = t.maxDepth := by
  cases op with
  | push | pop => exact hop.elim
  | checkBalanced =>
    obtain ⟨u, -, hr⟩ := Except.bind_eq_ok.1 h
    cases hr
    exact ⟨rfl, rfl⟩
  | addLocals n =>
    obtain ⟨-, hadd⟩ := apply_addLocals.1 h
    obtain ⟨-, rfl⟩ := Tracker.addLocals_eq_ok.1 hadd
    exact ⟨rfl, rfl⟩
  | allocLocal n =>
    obtain ⟨-, hadd⟩ := apply_allocLocal.1 h
    obtain ⟨-, rfl⟩ := Tracker.addLocals_eq_ok.1 hadd
    exact ⟨rfl, rfl⟩
  | releaseLocals n =>
    obtain ⟨-, -, rfl⟩ := apply_releaseLocals.1 h
    exact ⟨rfl, rfl⟩
  | noteLocal index width =>
    obtain ⟨-, hnote⟩ := apply_noteLocal.1 h
    obtain ⟨-, rfl⟩ := Tracker.noteLocal_eq_ok.1 hnote
    exact ⟨rfl, rfl⟩
  | noteLine line =>
    have ht : t' = (t.noteLine line).2 := by cases h; rfl
    rw [ht]
    have hsame := Emitter.sameSlots_noteLine t line
    exact ⟨hsame.depth, hsame.maxDepth⟩
  | noteEnd =>
    have ht : t' = t.noteEnd.2 := by cases h; rfl
    rw [ht]
    have hsame := Emitter.sameSlots_noteEnd t
    exact ⟨hsame.depth, hsame.maxDepth⟩

/-- **All that they do is to reserve local slots.** -/
theorem reserves_of_apply (h : op.apply t = .ok (answer, t')) (hop : op.LeavesStack) :
    t.Reserves t' := by
  obtain ⟨hdepth, hmaxDepth⟩ := depth_of_apply h hop
  obtain ⟨hmax, hword⟩ := maxLocals_apply h
  refine ⟨hdepth, hmaxDepth, ?_, fun hle => ?_⟩
  · rw [hmax]
    exact Nat.le_max_left _ _
  · rw [hmax]
    exact Nat.max_le.2 ⟨hle, hword⟩

end Tracking

namespace Emitter

variable {ret : JavaType} {e e' e'' : Emitter} {xs ys new : List Placed}

/-! ### Uses -/

/-- One use of the body under construction: an operation on it, on its tracker or on the
constants. -/
inductive Use where
  | operate (op : Operation)
  | track (op : Tracking)
  | intern (i : Interning)

namespace Use

/-- The body after a use. -/
def apply (e : Emitter) : Use → Except Defect Emitter
  | .operate op => do return (← op.run e).2
  | .track op => do return e.withTracker (← op.apply e.tracker).2
  | .intern i => .ok (e.withPool (i.apply e.pool).2)

/-- The body after uses in order. -/
def applyAll : List Use → Emitter → Except Defect Emitter
  | [], e => .ok e
  | use :: rest, e => do applyAll rest (← use.apply e)

theorem apply_operate_eq_ok {op : Operation} :
    (operate op).apply e = .ok e' ↔ op.run e = .ok ((), e') := by
  constructor
  · intro h
    obtain ⟨⟨_, e₁⟩, hrun, hpure⟩ := Except.bind_eq_ok.1 h
    cases hpure
    exact hrun
  · intro h
    exact Except.bind_eq_ok.2 ⟨_, h, rfl⟩

theorem apply_track_eq_ok {op : Tracking} :
    (track op).apply e = .ok e' ↔
      ∃ answer t, op.apply e.tracker = .ok (answer, t) ∧ e' = e.withTracker t := by
  constructor
  · intro h
    obtain ⟨⟨answer, t⟩, hrun, hpure⟩ := Except.bind_eq_ok.1 h
    cases hpure
    exact ⟨answer, t, hrun, rfl⟩
  · rintro ⟨answer, t, hrun, rfl⟩
    exact Except.bind_eq_ok.2 ⟨_, hrun, rfl⟩

/-- What a use has to meet. The operand stack of the tracker is moved by operations only. -/
def Fits (ret : JavaType) (e : Emitter) : Use → Prop
  | .operate op => e.reachable = true → op.Fits ret e.tracker.depth
  | .track op => op.LeavesStack
  | .intern _ => True

/-- Every use fits when its turn comes. -/
def FitsAll (ret : JavaType) : List Use → Emitter → Prop
  | [], _ => True
  | use :: rest, e => use.Fits ret e ∧ ∀ e', use.apply e = .ok e' → FitsAll ret rest e'

end Use

/-! ### Sessions -/

/-- **Steps in sequence, with slots reserved in between.** The list holds the instructions that were
written, the latest first. -/
inductive Session (ret : JavaType) (e : Emitter) : List Placed → Emitter → Prop where
  | refl : Session ret e [] e
  | step {e' e'' : Emitter} {xs new : List Placed} (h : Session ret e xs e')
      (hs : Step ret e' new e'') : Session ret e (new ++ xs) e''
  | reserve {e' : Emitter} {xs : List Placed} {t : Tracker} (h : Session ret e xs e')
      (ht : e'.tracker.Reserves t) : Session ret e xs (e'.withTracker t)

theorem Emission.session (h : Emission ret e xs e') : Session ret e xs e' := by
  induction h with
  | refl => exact .refl
  | step _ hs ih => exact .step ih hs

namespace Session

theorem trans (h : Session ret e xs e') (h' : Session ret e' ys e'') :
    Session ret e (ys ++ xs) e'' := by
  induction h' with
  | refl => exact h
  | step _ hs ih =>
    rw [List.append_assoc]
    exact .step ih hs
  | reserve _ ht ih => exact .reserve ih ht

theorem grows (h : Session ret e xs e') : Grows e.pool e'.pool := by
  induction h with
  | refl => exact .refl _
  | step _ hs ih => exact ih.trans hs.grows
  | reserve _ _ ih => exact ih

/-- **What a step and a reservation keep, a session keeps.** -/
theorem invariant {I : Emitter → List Placed → Prop}
    (hstep : ∀ {e xs new e'}, Step ret e new e' → I e xs → I e' (new ++ xs))
    (hreserve : ∀ {e xs t}, e.tracker.Reserves t → I e xs → I (e.withTracker t) xs)
    (h : Session ret e new e') (h₀ : I e xs) : I e' (new ++ xs) := by
  induction h with
  | refl => exact h₀
  | step _ hs ih =>
    rw [List.append_assoc]
    exact hstep hs ih
  | reserve _ ht ih => exact hreserve ht ih

end Session

/-! ### What reservations keep -/

theorem Origins.withTracker (h : Origins e xs) (t : Tracker) : Origins (e.withTracker t) xs :=
  ⟨h.tiles, h.waiting, h.here, h.led⟩

theorem LineMarks.withTracker (h : LineMarks e xs) (t : Tracker) :
    LineMarks (e.withTracker t) xs :=
  ⟨h.marks, h.ordered⟩

section Reservations

variable {t : Tracker} (ht : e.tracker.Reserves t)
include ht

theorem At.reserve {q d : Nat} (h : At e xs q d) : At (e.withTracker t) xs q d :=
  h.imp_right fun ⟨hq, hr, hd⟩ => ⟨hq, hr, ht.depth.trans hd⟩

theorem Flow.reserve (h : Flow ret e xs) : Flow ret (e.withTracker t) xs where
  tiles := h.tiles
  branches := h.branches
  formed := h.formed
  inOrder := h.inOrder
  entry := h.entry.reserve ht
  next x hx hlive hterm := (h.next x hx hlive hterm).reserve ht
  expected := h.expected
  placed k q hq := by
    obtain ⟨d, hd, hat⟩ := h.placed k q hq
    exact ⟨d, hd, hat.reserve ht⟩

/-- A reservation makes all declared local slots reserved ones. -/
theorem Extent.reserve {p : Nat} (h : Extent p e xs) :
    Extent t.maxLocals (e.withTracker t) xs where
  depth := by
    show t.depth ≤ t.maxDepth
    rw [ht.depth, ht.maxDepth]
    exact h.depth
  expected k d hd := (h.expected k d hd).trans_eq ht.maxDepth.symm
  maxDepth := ht.maxDepth.trans_le h.maxDepth
  after x hx hlive := (h.after x hx hlive).trans_eq ht.maxDepth.symm
  params := Nat.le_refl _
  maxLocals := ht.word h.maxLocals
  locals x hx hlive := (h.locals x hx hlive).trans ht.locals
  deepest hall := by
    show t.maxDepth = 0 ∨ ∃ x ∈ xs, x.after = t.maxDepth
    rw [ht.maxDepth]
    exact h.deepest hall
  widest _ := .inl rfl

end Reservations

/-- The slots that are reserved at the start stay so. -/
theorem Session.exists_extent {p : Nat} (h : Session ret e new e') (h₀ : Extent p e xs) :
    ∃ q, p ≤ q ∧ Extent q e' (new ++ xs) := by
  induction h with
  | refl => exact ⟨p, Nat.le_refl p, h₀⟩
  | step _ hs ih =>
    obtain ⟨q, hle, hext⟩ := ih
    rw [List.append_assoc]
    exact ⟨q, hle, hext.step hs⟩
  | reserve _ ht ih =>
    obtain ⟨q, hle, hext⟩ := ih
    exact ⟨_, (hle.trans hext.params).trans ht.locals, hext.reserve ht⟩

/-- **A session from the start leads to a complete body.** -/
theorem Session.exists_complete {pool : ConstantPool} {p : Nat} {body : MethodBody}
    (h : Session ret (ofPool pool p) xs e) (hp : p ≤ wordMax) (hdead : e.reachable = false)
    (hfinish : e.finish = .ok body) : ∃ q, p ≤ q ∧ Complete ret q e xs body := by
  obtain ⟨q, hle, hextent⟩ := h.exists_extent (extent_ofPool pool hp)
  have hflow := h.invariant (I := Flow ret) Flow.step Flow.reserve (flow_ofPool pool p)
  have horigins := h.invariant (I := Origins) Origins.step (fun _ ho => ho.withTracker _)
    (origins_ofPool pool p)
  have hmarks := h.invariant (I := LineMarks) LineMarks.step (fun _ hm => hm.withTracker _)
    (lineMarks_ofPool pool p)
  rw [List.append_nil] at hflow hextent horigins hmarks
  exact ⟨q, hle, hflow, hextent, horigins, hmarks, hdead, hfinish⟩

/-! ### Uses are sessions -/

/-- **A use that fits is a session.** -/
theorem Use.exists_session {use : Use} (hcoh : e.pool.Coherent) (hfits : use.Fits ret e)
    (h : use.apply e = .ok e') : ∃ xs, Session ret e xs e' := by
  cases use with
  | operate op =>
    obtain ⟨xs, hem, -⟩ := op.exists_emission hcoh (apply_operate_eq_ok.1 h) hfits
    exact ⟨xs, hem.session⟩
  | track op =>
    obtain ⟨answer, t, hrun, rfl⟩ := apply_track_eq_ok.1 h
    exact ⟨[], .reserve .refl (Tracking.reserves_of_apply hrun hfits)⟩
  | intern i =>
    cases h
    exact ⟨_, .step .refl (.intern (grows_apply e.pool i))⟩

/-- **Uses that fit are a session.** -/
theorem exists_session_of_applyAll {uses : List Use} (hcoh : e.pool.Coherent)
    (hfits : Use.FitsAll ret uses e) (h : Use.applyAll uses e = .ok e') :
    ∃ xs, Session ret e xs e' := by
  induction uses generalizing e with
  | nil =>
    cases h
    exact ⟨[], .refl⟩
  | cons use rest ih =>
    obtain ⟨e₁, huse, hrest⟩ := Except.bind_eq_ok.1 h
    obtain ⟨xs, hfirst⟩ := use.exists_session hcoh hfits.1 huse
    obtain ⟨ys, hsecond⟩ := ih (hfirst.grows.coherent hcoh) (hfits.2 e₁ huse) hrest
    exact ⟨ys ++ xs, hfirst.trans hsecond⟩

end Emitter

end ClassForge
