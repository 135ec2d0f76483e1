import ClassForge.Proofs.Inspection.Walk
import Mathlib.Data.Set.Card

/-!
# The work of a walk

The list of pending entries grows while it is worked off, and code may lead back to where it came
from. The loop ends all the same, and here its work is counted without any bound built in.

* `Walk.Takes s w n r` — from `w` on the loop takes `n` pending entries and ends with `r`;
* `Walk.Takes.run_eq` — **PROVED**: the bounded loop ends in the same way, or says that its bound is
  not enough;
* `Walk.exists_takes` — **PROVED**: the entries and twice the instructions without a mark bound the
  work that is left;
* `Walk.work_bounded` — **PROVED**: the bound for a whole body.
-/

namespace ClassForge.Inspection

open BodyCheck Instruction

/-! ### Instructions of a body -/

/-- The offsets where the instructions of a code start, read from its beginning. -/
def instructionStarts (code : Array UInt8) : Set Nat := {pc | Sweep code 0 pc ∧ pc < code.size}

theorem countP_starts (starts : Array Bool) :
    starts.countP id = ((List.range starts.size).filter (isStart starts)).length := by
  have hmap : starts.toList = (List.range starts.size).map (isStart starts) := by
    refine List.ext_getElem (by simp) fun k hk hk' => ?_
    have hlt : k < starts.size := by simpa using hk
    simp [isStart, hlt]
  rw [← Array.countP_toList, hmap, List.countP_map, ← List.countP_eq_length_filter]
  rfl

/-- **The marks count the instructions.** -/
theorem ncard_instructionStarts {code : Array UInt8} {starts : Array Bool}
    (h : boundaries code = .ok starts) :
    (instructionStarts code).ncard = starts.countP id := by
  have hset : instructionStarts code =
      ((List.range starts.size).filter (isStart starts)).toFinset := by
    ext pc
    rw [List.coe_toFinset, Set.mem_ofPred_eq, List.mem_filter, List.mem_range,
      isStart_iff_sweep h pc, size_of_boundaries h]
    exact ⟨fun hpc => ⟨hpc.2, hpc⟩, fun hpc => hpc.2⟩
  rw [hset, Set.ncard_coe_finset, List.toFinset_card_of_nodup (List.nodup_range.filter _),
    countP_starts]

namespace Walk

variable {s : Subject} {w w' : Walk} {pc depth n : Nat} {r : BodyCheck Walk}

/-! ### Counting the entries taken -/

/-- **The loop over the pending entries.** It takes `n` of them, one after the other, and ends with
`r`: when none is left, or at the first entry whose visit fails. -/
inductive Takes (s : Subject) : Walk → Nat → BodyCheck Walk → Prop where
  | done {w : Walk} (hp : w.pending = []) : Takes s w 0 (pure w)
  | fail {w : Walk} {pc depth : Nat} {rest : List (Nat × Nat)}
      (hp : w.pending = (pc, depth) :: rest)
      (hfail : ∀ w', visit s { w with pending := rest } pc depth ≠ pure w') :
      Takes s w 1 (visit s { w with pending := rest } pc depth)
  | next {w w' : Walk} {pc depth n : Nat} {rest : List (Nat × Nat)} {r : BodyCheck Walk}
      (hp : w.pending = (pc, depth) :: rest)
      (hvisit : visit s { w with pending := rest } pc depth = pure w') (h : Takes s w' n r) :
      Takes s w (n + 1) r

theorem run_of_nil (hp : w.pending = []) (fuel : Nat) : run s fuel w = pure w := by
  unfold run
  simp only [hp]

theorem run_zero {entry : Nat × Nat} {rest : List (Nat × Nat)} (hp : w.pending = entry :: rest) :
    run s 0 w = abort .walkUnfinished := by
  unfold run
  simp only [hp]

theorem run_succ {rest : List (Nat × Nat)} (hp : w.pending = (pc, depth) :: rest) (fuel : Nat) :
    run s (fuel + 1) w = visit s { w with pending := rest } pc depth >>= run s fuel := by
  rw [run]
  simp only [hp]

/-- What fails is not continued. -/
theorem bind_of_ne_pure {α : Type} {x : BodyCheck α} (h : ∀ a, x ≠ pure a)
    (f : α → BodyCheck α) : x >>= f = x := by
  rcases x with d | (fault | a)
  · rfl
  · rfl
  · exact absurd rfl (h a)

/-- **The bounded loop tells whether its bound is enough.** -/
theorem Takes.run_eq (h : Takes s w n r) (fuel : Nat) :
    run s fuel w = if n ≤ fuel then r else abort .walkUnfinished := by
  induction h generalizing fuel with
  | done hp => rw [run_of_nil hp, if_pos (Nat.zero_le fuel)]
  | fail hp hfail =>
    cases fuel with
    | zero => rw [run_zero hp, if_neg (Nat.not_succ_le_zero 0)]
    | succ fuel =>
      rw [run_succ hp, bind_of_ne_pure hfail, if_pos (Nat.succ_le_succ (Nat.zero_le fuel))]
  | next hp hvisit _ ih =>
    cases fuel with
    | zero => rw [run_zero hp, if_neg (Nat.not_succ_le_zero _)]
    | succ fuel =>
      rw [run_succ hp, hvisit, pure_bind, ih fuel]
      simp only [Nat.add_le_add_iff_right]

/-- The number of entries and the outcome are those of one loop. -/
theorem Takes.unique (h : Takes s w n r) {n' : Nat} {r' : BodyCheck Walk}
    (h' : Takes s w n' r') : n' = n ∧ r' = r := by
  induction h generalizing n' r' with
  | done hp =>
    cases h' with
    | done => exact ⟨rfl, rfl⟩
    | fail hp' | next hp' =>
      rw [hp] at hp'
      cases hp'
  | fail hp hfail =>
    cases h' with
    | done hp' =>
      rw [hp] at hp'
      cases hp'
    | fail hp' =>
      rw [hp] at hp'
      cases hp'
      exact ⟨rfl, rfl⟩
    | next hp' hvisit' =>
      rw [hp] at hp'
      cases hp'
      exact absurd hvisit' (hfail _)
  | next hp hvisit _ ih =>
    cases h' with
    | done hp' =>
      rw [hp] at hp'
      cases hp'
    | fail hp' hfail' =>
      rw [hp] at hp'
      cases hp'
      exact absurd hvisit (hfail' _)
    | next hp' hvisit' hrest' =>
      rw [hp] at hp'
      cases hp'
      rw [hvisit, pure_eq_pure] at hvisit'
      subst hvisit'
      obtain ⟨rfl, rfl⟩ := ih hrest'
      exact ⟨rfl, rfl⟩

/-! ### The bound -/

/-- **The loop ends within the remaining steps**, whatever the code leads back to. -/
theorem exists_takes (bound : Nat) :
    ∀ w : Walk, MarksStarts s w → remaining s w ≤ bound → ∃ n r, Takes s w n r ∧ n ≤ bound := by
  -- The bound falls by one with every entry; a failure takes the last of them.
  induction bound with
  | zero =>
    intro w _ hle
    have hp : w.pending = [] := by
      unfold remaining at hle
      exact List.length_eq_zero_iff.1 (by omega)
    exact ⟨0, pure w, .done hp, Nat.le_refl 0⟩
  | succ bound ih =>
    intro w hw hle
    cases hp : w.pending with
    | nil => exact ⟨0, pure w, .done hp, Nat.zero_le _⟩
    | cons entry rest =>
      obtain ⟨pc, depth⟩ := entry
      by_cases hvisit : ∃ w', Walk.visit s { w with pending := rest } pc depth = pure w'
      · obtain ⟨w', hvisit⟩ := hvisit
        obtain ⟨hmarks, hlt⟩ := hw.visit hp hvisit
        obtain ⟨n, r, htakes, hn⟩ := ih w' hmarks (by omega)
        exact ⟨n + 1, r, .next hp hvisit htakes, Nat.succ_le_succ hn⟩
      · exact ⟨1, _, .fail hp (not_exists.1 hvisit), Nat.succ_le_succ (Nat.zero_le bound)⟩

/-- **The work of a walk is bounded.**  The loop over any body, with any marks for its instructions,
takes at most one entry for the entry point, one for each handler and two for each mark before it
ends. It always ends, in one way only, and the bounded loop ends in the same way exactly if its
bound is at least the number of entries taken. The marks that the linear pass over the code leaves
are as many as the code has instructions. -/
theorem work_bounded (s : Subject) (params : Nat) :
    (∃ n r, Takes s (start s params) n r ∧
      n ≤ 1 + s.body.handlers.length + 2 * s.starts.countP id ∧
      (∀ n' r', Takes s (start s params) n' r' → n' = n ∧ r' = r) ∧
      ∀ fuel, run s fuel (start s params) = if n ≤ fuel then r else abort .walkUnfinished) ∧
    (boundaries s.body.code = .ok s.starts →
      s.starts.countP id = (instructionStarts s.body.code).ncard) := by
  have hmarks : MarksStarts s (start s params) := fun pc d hv =>
    absurd hv (not_visited_start s params pc d)
  obtain ⟨n, r, htakes, hn⟩ := exists_takes _ _ hmarks (Nat.le_of_eq (remaining_start s params))
  exact ⟨⟨n, r, htakes, hn, fun _ _ => htakes.unique, htakes.run_eq⟩,
    fun hs => (ncard_instructionStarts hs).symm⟩

/-- The loop over the body that leads back to its start. -/
theorem work_loopSubject :
    (∃ n r, Takes loopSubject (start loopSubject 1) n r ∧ n ≤ 14) ∧
      (instructionStarts loopSubject.body.code).ncard = 6 := by
  have hs : boundaries loopSubject.body.code = .ok loopSubject.starts := by decide +kernel
  have hcount : loopSubject.starts.countP id = 6 := by decide +kernel
  obtain ⟨⟨n, r, htakes, hn, -⟩, hstarts⟩ := work_bounded loopSubject 1
  rw [hcount] at hn hstarts
  exact ⟨⟨n, r, htakes, hn⟩, (hstarts hs).symm⟩

end Walk

end ClassForge.Inspection
