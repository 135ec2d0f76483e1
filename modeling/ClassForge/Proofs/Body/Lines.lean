import ClassForge.Body.Assembly
import Mathlib.Data.List.Basic
import Mathlib.Data.List.Perm.Subperm
import Mathlib.Tactic.SplitIfs

/-!
# Line tables

A body under construction marks where source lines start. A mark for the instruction marked last
replaces the old one, so that the table stays in order:

* `lines_markLine` — what one mark does to the table;
* `OrderedLines.markLine` — **PROVED**: marks keep the offsets in rising order;
* `OrderedLines.length_le` — **PROVED**: such a table has no more entries than there are offsets.
-/

namespace ClassForge.Assembly

/-- A mark changes the line table only. -/
theorem markLine_eq (a : Assembly) (line : UInt16) :
    a.markLine line = { a with lines := (a.markLine line).lines } := by
  unfold markLine
  cases a.lines.back? with
  | none => rfl
  | some last =>
    dsimp only
    split_ifs <;> rfl

/-- What a mark does to the line table: nothing, or the last entry is one for the next instruction,
in the place of an entry for the same instruction or after the others. -/
theorem lines_markLine (a : Assembly) (line : UInt16) :
    (a.markLine line).lines = a.lines ∨
      ∃ kept, (a.markLine line).lines.toList = kept ++ [⟨UInt16.ofNat a.code.size, line⟩] ∧
        ((∃ last, a.lines.toList = kept ++ [last] ∧ last.startPc = UInt16.ofNat a.code.size) ∨
          a.lines.toList = kept ∧
            ∀ init last, kept = init ++ [last] → last.startPc ≠ UInt16.ofNat a.code.size) := by
  unfold markLine
  rcases List.eq_nil_or_concat a.lines.toList with hnil | ⟨init, last, hlast⟩
  · have hback : a.lines.back? = none := by
      rw [← Array.getLast?_toList, hnil]
      rfl
    rw [hback]
    exact .inr ⟨[], by simp [hnil], .inr ⟨hnil, fun _ _ h => absurd h (by simp)⟩⟩
  · have hback : a.lines.back? = some last := by
      rw [← Array.getLast?_toList, hlast, List.concat_eq_append, List.getLast?_concat]
    rw [List.concat_eq_append] at hlast
    rw [hback]
    dsimp only
    split_ifs with hpc hline
    · exact .inr ⟨init, by simp [hlast], .inl ⟨last, hlast, hpc⟩⟩
    · exact .inl rfl
    · refine .inr ⟨init ++ [last], by simp [hlast], .inr ⟨hlast, fun init' last' h => ?_⟩⟩
      rw [← (List.append_inj' h rfl).2 |> List.singleton_inj.1]
      exact hpc

theorem mem_lines_markLine {a : Assembly} {line : UInt16} {l : LineEntry}
    (h : l ∈ (a.markLine line).lines) : l ∈ a.lines ∨ l.startPc = UInt16.ofNat a.code.size := by
  rcases lines_markLine a line with hsame | ⟨kept, hnew, hold⟩
  · rw [hsame] at h
    exact .inl h
  · rw [← Array.mem_toList_iff, hnew, List.mem_append, List.mem_singleton] at h
    rcases h with h | rfl
    · left
      rw [← Array.mem_toList_iff]
      rcases hold with ⟨last, hlast, -⟩ | ⟨hkept, -⟩
      · rw [hlast]
        exact List.mem_append_left _ h
      · rw [hkept]
        exact h
    · exact .inr rfl

/-- The line table lists offsets in rising order, up to the end of the code. -/
structure OrderedLines (a : Assembly) : Prop where
  rising : a.lines.toList.Pairwise fun l l' => l.startPc < l'.startPc
  within : ∀ l ∈ a.lines, l.startPc.toNat ≤ a.code.size

/-- Further code leaves the line table in order. -/
theorem OrderedLines.mono {a a' : Assembly} (h : a.OrderedLines) (hlines : a'.lines = a.lines)
    (hsize : a.code.size ≤ a'.code.size) : a'.OrderedLines :=
  ⟨hlines ▸ h.rising, fun l hl => Nat.le_trans (h.within l (hlines ▸ hl)) hsize⟩

theorem toNat_ofNat_of_le {n : Nat} (h : n ≤ wordMax) : (UInt16.ofNat n).toNat = n := by
  rw [UInt16.toNat_ofNat']
  exact Nat.mod_eq_of_lt (Nat.lt_succ_of_le h)

/-- **Marks keep the order of the line table**, in code that a word can measure. -/
theorem OrderedLines.markLine {a : Assembly} (h : a.OrderedLines) (hsize : a.code.size ≤ wordMax)
    (line : UInt16) : (a.markLine line).OrderedLines := by
  have hcode : (a.markLine line).code = a.code := by rw [markLine_eq]
  refine ⟨?_, fun l hl => ?_⟩
  · rcases lines_markLine a line with hsame | ⟨kept, hnew, hold⟩
    · rw [hsame]
      exact h.rising
    · rw [hnew, List.pairwise_append]
      rcases hold with ⟨last, hlast, hpc⟩ | ⟨hkept, hfresh⟩
      · have hrising := h.rising
        rw [hlast, List.pairwise_append] at hrising
        refine ⟨hrising.1, List.pairwise_singleton _ _, fun l hl l' hl' => ?_⟩
        rw [List.mem_singleton.1 hl', ← hpc]
        exact hrising.2.2 l hl last (List.mem_singleton.2 rfl)
      · have hrising := h.rising
        rw [hkept] at hrising
        refine ⟨hrising, List.pairwise_singleton _ _, fun l hl l' hl' => ?_⟩
        rw [List.mem_singleton.1 hl']
        -- The last entry is before the end of the code, and no entry is after the last one.
        obtain ⟨init, last, hsplit⟩ := (List.eq_nil_or_concat kept).resolve_left
          (List.ne_nil_of_mem hl)
        rw [List.concat_eq_append] at hsplit
        have hmem : ∀ l ∈ kept, l.startPc.toNat ≤ a.code.size := fun l hl =>
          h.within l (Array.mem_toList_iff.1 (hkept ▸ hl))
        have hlast : last.startPc < UInt16.ofNat a.code.size := by
          have hle := hmem last (hsplit ▸ by simp)
          have hne := hfresh init last hsplit
          rw [UInt16.lt_iff_toNat_lt, toNat_ofNat_of_le hsize]
          refine Nat.lt_of_le_of_ne hle fun heq => hne ?_
          rw [← UInt16.toNat_inj, toNat_ofNat_of_le hsize, heq]
        rw [hsplit, List.mem_append, List.mem_singleton] at hl
        rcases hl with hl | rfl
        · rw [hsplit, List.pairwise_append] at hrising
          exact UInt16.lt_trans (hrising.2.2 l hl last (List.mem_singleton.2 rfl)) hlast
        · exact hlast
  · rw [hcode]
    rcases mem_lines_markLine hl with hold | hnew
    · exact h.within l hold
    · exact Nat.le_of_eq (by rw [hnew, toNat_ofNat_of_le hsize])

/-- A line table in order has no more entries below a limit than there are offsets. -/
theorem OrderedLines.length_le {a : Assembly} (h : a.OrderedLines) {limit : UInt16} :
    (a.lines.toList.filter (·.startPc < limit)).length ≤ limit.toNat := by
  have hrising := (h.rising.sublist List.filter_sublist : List.Pairwise _
    (a.lines.toList.filter (·.startPc < limit)))
  have hnodup : ((a.lines.toList.filter (·.startPc < limit)).map
      fun l => l.startPc.toNat).Nodup := by
    rw [List.Nodup, List.pairwise_map]
    exact hrising.imp fun hlt => Nat.ne_of_lt (UInt16.lt_iff_toNat_lt.1 hlt)
  have hsub : ((a.lines.toList.filter (·.startPc < limit)).map fun l => l.startPc.toNat) ⊆
      List.range limit.toNat := by
    intro k hk
    obtain ⟨l, hl, rfl⟩ := List.mem_map.1 hk
    have hlt := (List.mem_filter.1 hl).2
    exact List.mem_range.2 (UInt16.lt_iff_toNat_lt.1 (of_decide_eq_true hlt))
  have hlen := (hnodup.subperm hsub).length_le
  rwa [List.length_map, List.length_range] at hlen

end ClassForge.Assembly
