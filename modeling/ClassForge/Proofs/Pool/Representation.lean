import ClassForge.Proofs.Pool.Reading
import ClassForge.Proofs.Pool.Resolution

/-!
# The representation of a pool

Every named operation adds constants one at a time, and each of these attempts finds the constant,
appends it, or exceeds a limit. What holds of a pool after any sequence of operations, also of one
that exceeds limits, follows from what one attempt does.

* `WellFormed` — which slots are empty, that no constant stands twice, that the index map knows
  exactly the constants of the slots, and that the declared count is exact;
* `add`, `Interning.attempts`, `attempts` — the constants that operations try to add, in order;
* `Exceeds`, `ExceedsAt`, `FirstExcess` — an attempt does not fit a pool, and the first one of a
  sequence that does not;
* `add_cases` — **PROVED**: what one attempt does;
* `violation_ofConstants_eq_some` — **PROVED**: the limit that a pool remembers is the first one
  exceeded;
* `representation_ofInternings` — **PROVED**: all of this for any sequence of named operations.
-/

namespace ClassForge

namespace ConstantPool

variable {p p' : ConstantPool} {c : Constant} {e e' : LimitError}

/-! ### Well-formed pools -/

/-- **What holds of a pool between operations.** -/
structure WellFormed (p : ConstantPool) : Prop where
  /-- Empty are index 0 and the slots after 64-bit numbers, and no others. -/
  gaps : ∀ k : Nat, p.slots[k]? = some none ↔
    k = 0 ∨ ∃ j c, k = j + 1 ∧ p.slots[j]? = some (some c) ∧ c.width = 2
  distinct : ∀ (j k : Nat) (c : Constant), p.slots[j]? = some (some c) →
    p.slots[k]? = some (some c) → j = k
  /-- The index map knows the constants of the slots with their places, and nothing else. -/
  indexed : ∀ (c : Constant) (k : Nat),
    p.index[c]?.map UInt16.toNat = some k ↔ p.slots[k]? = some (some c)
  widths : 1 + (p.toList.map fun (_, c) => c.width).sum = p.count.toNat
  /-- The declared count is not truncated. -/
  counted : p.count.toNat = p.slots.size
  bounded : p.slots.size ≤ 65535

theorem getElem?_pushSlots (slots : Array (Option Constant)) (c : Constant) (k : Nat) :
    (pushSlots slots c)[k]? =
      if k < slots.size then slots[k]?
      else if k = slots.size then some (some c)
      else if k = slots.size + 1 ∧ c.width = 2 then some none
      else none := by
  by_cases hlt : k < slots.size
  · rw [if_pos hlt, getElem?_pushSlots_of_lt c hlt]
  rw [if_neg hlt]
  by_cases heq : k = slots.size
  · rw [if_pos heq, heq, getElem?_pushSlots_size]
  rw [if_neg heq]
  by_cases hnext : k = slots.size + 1 ∧ c.width = 2
  · obtain ⟨rfl, hwide⟩ := hnext
    have hsize : slots.size + 1 = (slots.push (some c)).size := (Array.size_push _).symm
    rw [if_pos ⟨rfl, hwide⟩, pushSlots, if_pos hwide, hsize, Array.getElem?_push_size]
  · rw [if_neg hnext, Array.getElem?_eq_none]
    have hwidth : c.width = 1 ∨ c.width = 2 := by
      cases c <;> simp [Constant.width]
    rw [size_pushSlots]
    omega

/-- Empty are the first slot and those after 64-bit numbers. -/
def Gapped (slots : Array (Option Constant)) : Prop :=
  ∀ k : Nat, slots[k]? = some none ↔
    k = 0 ∨ ∃ j c, k = j + 1 ∧ slots[j]? = some (some c) ∧ c.width = 2

theorem gapped_singleton : Gapped #[none] := by
  intro k
  cases k with
  | zero => simp
  | succ k =>
    constructor
    · intro h
      cases h
    · rintro (h | ⟨j, c, -, hj, -⟩)
      · cases h
      · cases j <;> cases hj

theorem Gapped.exists_wide {slots : Array (Option Constant)} {k : Nat} (h : Gapped slots)
    (hk : (pushSlots slots c)[k]? = some none) :
    k = 0 ∨ ∃ j d, k = j + 1 ∧ (pushSlots slots c)[j]? = some (some d) ∧ d.width = 2 := by
  rw [getElem?_pushSlots] at hk
  split at hk
  · -- An old gap stays, and so does the number before it.
    rename_i hlt
    rcases (h k).1 hk with rfl | ⟨j, d, rfl, hj, hwide⟩
    · exact .inl rfl
    · refine .inr ⟨j, d, rfl, ?_, hwide⟩
      rw [getElem?_pushSlots_of_lt c (by omega)]
      exact hj
  · split at hk
    · cases hk
    · split at hk
      · rename_i hnext
        exact .inr ⟨slots.size, c, hnext.1, getElem?_pushSlots_size slots c, hnext.2⟩
      · cases hk

theorem Gapped.gap_of_wide {slots : Array (Option Constant)} {j : Nat} {d : Constant}
    (h : Gapped slots) (hj : (pushSlots slots c)[j]? = some (some d)) (hwide : d.width = 2) :
    (pushSlots slots c)[j + 1]? = some none := by
  rw [getElem?_pushSlots] at hj
  split at hj
  · have hgap := (h (j + 1)).2 (.inr ⟨j, d, rfl, hj, hwide⟩)
    rw [getElem?_pushSlots_of_lt c (Array.getElem?_eq_some_iff.1 hgap).1]
    exact hgap
  · split at hj
    · rename_i heq
      cases hj
      rw [getElem?_pushSlots, heq, if_neg (by omega), if_neg (by omega), if_pos ⟨rfl, hwide⟩]
    · split at hj <;> cases hj

theorem Gapped.pushSlots {slots : Array (Option Constant)} (h : Gapped slots) (c : Constant) :
    Gapped (pushSlots slots c) := by
  intro k
  refine ⟨h.exists_wide, ?_⟩
  rintro (rfl | ⟨j, d, rfl, hj, hwide⟩)
  · have hzero : slots[0]? = some none := (h 0).2 (.inl rfl)
    rw [getElem?_pushSlots_of_lt c (Array.getElem?_eq_some_iff.1 hzero).1]
    exact hzero
  · exact h.gap_of_wide hj hwide

theorem Gapped.foldl_pushSlots (cs : List Constant) :
    ∀ {slots : Array (Option Constant)}, Gapped slots →
      Gapped (cs.foldl ConstantPool.pushSlots slots) := by
  induction cs with
  | nil => exact id
  | cons c cs ih => exact fun h => ih (h.pushSlots c)

theorem size_foldl_pushSlots (cs : List Constant) :
    ∀ slots : Array (Option Constant),
      (cs.foldl pushSlots slots).size = slots.size + (cs.map Constant.width).sum := by
  induction cs with
  | nil =>
    intro slots
    rfl
  | cons c cs ih =>
    intro slots
    rw [List.foldl_cons, ih, size_pushSlots, List.map_cons, List.sum_cons, Nat.add_assoc]

theorem toNat_ofNat_le {n : Nat} (h : n ≤ wordMax) : (UInt16.ofNat n).toNat = n := by
  rw [UInt16.toNat_ofNat']
  unfold wordMax at h
  exact Nat.mod_eq_of_lt (by omega)

/-- A slot is what an index finds, as long as indices reach all slots. -/
theorem get?_ofNat {k : Nat} (hsize : p.slots.size ≤ wordMax) (hk : p.slots[k]? = some (some c)) :
    (UInt16.ofNat k).toNat = k ∧ p.get? (UInt16.ofNat k) = some c := by
  have hlt : k < p.slots.size := (Array.getElem?_eq_some_iff.1 hk).1
  have hnat : (UInt16.ofNat k).toNat = k := toNat_ofNat_le (by omega)
  refine ⟨hnat, ?_⟩
  rw [get?, hnat, hk]
  rfl

theorem slots_of_get? {i : UInt16} (h : p.get? i = some c) :
    p.slots[i.toNat]? = some (some c) := by
  unfold get? at h
  cases hslot : p.slots[i.toNat]? with
  | none =>
    rw [hslot] at h
    cases h
  | some c? =>
    rw [hslot] at h
    exact congrArg some h

/-- A pool whose slots list constants, and whose index map is right, is well-formed. -/
theorem wellFormed_of_listed (hlisted : p.Listed) (hcoh : p.Coherent) (hfiled : p.Filed) :
    p.WellFormed := by
  obtain ⟨cs, hcs⟩ := hlisted
  have hindexed : ∀ c k, p.index[c]?.map UInt16.toNat = some k ↔ p.slots[k]? = some (some c) := by
    intro c k
    constructor
    · intro h
      obtain ⟨i, hi, rfl⟩ := Option.map_eq_some_iff.1 h
      exact slots_of_get? (hcoh c i hi)
    · intro h
      obtain ⟨hnat, hget⟩ := get?_ofNat hcs.size h
      rw [hfiled _ c hget, Option.map_some, hnat]
  have hcount : p.count.toNat = p.slots.size := toNat_ofNat_le hcs.size
  refine ⟨?_, ?_, hindexed, ?_, hcount, hcs.size⟩
  · rw [hcs.slots]
    exact gapped_singleton.foldl_pushSlots cs
  · intro j k c hj hk
    have hj' := (hindexed c j).2 hj
    rw [(hindexed c k).2 hk] at hj'
    exact (Option.some.inj hj').symm
  · have hlist : p.toList.map Prod.snd = cs := by
      rw [map_snd_toList, hcs.slots, filterMap_foldl_pushSlots]
      simp
    have hwidths : (p.toList.map fun (_, c) => c.width) = cs.map Constant.width := by
      rw [← hlist, List.map_map]
      rfl
    rw [hwidths, hcount, hcs.slots, size_foldl_pushSlots]
    rfl

/-! ### One attempt -/

/-- Tries to add one constant. A text passes the check of its length first. -/
def add (p : ConstantPool) (c : Constant) : ConstantPool :=
  match c with
  | .utf8 text => (p.utf8 text).2
  | c => (p.intern c).2

/-- **A constant does not fit a pool**: a text whose encoding is too long, or a constant that is not
in the pool and needs more slots than are left. -/
inductive Exceeds (p : ConstantPool) : Constant → LimitError → Prop
  | tooLong {text : String} (h : 65535 < ModifiedUtf8.encodedLength text) :
    Exceeds p (.utf8 text) (.textTooLong (ModifiedUtf8.encodedLength text))
  | full {c : Constant} (hc : c.Storable) (hnew : ∀ k : Nat, p.slots[k]? ≠ some (some c))
    (hroom : 65535 < p.slots.size + c.width) : Exceeds p c .poolFull

theorem Exceeds.unique (h : Exceeds p c e) (h' : Exceeds p c e') : e = e' := by
  cases h with
  | tooLong hlong =>
    cases h' with
    | tooLong => rfl
    | full hc => exact absurd (show ModifiedUtf8.encodedLength _ ≤ 65535 from hc) (by omega)
  | full hc =>
    cases h' with
    | tooLong hlong =>
      exact absurd (show ModifiedUtf8.encodedLength _ ≤ 65535 from hc) (by omega)
    | full => rfl

/-- Only a full pool can refuse a storable constant. -/
theorem not_exceeds (hc : c.Storable)
    (h : (∃ k : Nat, p.slots[k]? = some (some c)) ∨ p.slots.size + c.width ≤ 65535) :
    ¬Exceeds p c e := by
  intro he
  cases he with
  | tooLong hlong => exact absurd (show ModifiedUtf8.encodedLength _ ≤ 65535 from hc) (by omega)
  | full _ hnew hroom =>
    rcases h with ⟨k, hk⟩ | hroom'
    · exact hnew k hk
    · omega

/-- A constant that is present is found before the room is looked at. -/
theorem WellFormed.intern_of_present (hwf : p.WellFormed) {k : Nat}
    (hk : p.slots[k]? = some (some c)) : (p.intern c).2 = p := by
  obtain ⟨i, hi, -⟩ := Option.map_eq_some_iff.1 ((hwf.indexed c k).2 hk)
  unfold intern
  rw [hi]

/-- **What interning a constant of the right size does.** -/
theorem intern_fits_or_exceeds (hwf : p.WellFormed) (hc : c.Storable) :
    (Exceeds p c .poolFull ∧ (p.intern c).2 = p.reject .poolFull) ∨
      (∀ e, ¬Exceeds p c e) ∧ (p.intern c).2.violation = p.violation ∧
        p.slots.toList <+: (p.intern c).2.slots.toList := by
  by_cases hold : ∃ k : Nat, p.slots[k]? = some (some c)
  · obtain ⟨k, hk⟩ := hold
    refine .inr ⟨fun _ => not_exceeds hc (.inl ⟨k, hk⟩), ?_⟩
    rw [hwf.intern_of_present hk]
    exact ⟨rfl, List.prefix_rfl⟩
  rcases intern_cases p c with ⟨i, hi, -⟩ | ⟨hroom, hrun⟩ | ⟨-, hroom, hrun⟩
  · exact absurd ⟨i.toNat, (hwf.indexed c _).1 (by rw [hi]; rfl)⟩ hold
  · refine .inl ⟨.full hc (fun k hk => hold ⟨k, hk⟩) hroom, ?_⟩
    rw [hrun]
  · refine .inr ⟨fun _ => not_exceeds hc (.inr hroom), ?_⟩
    rw [hrun]
    refine ⟨rfl, ?_⟩
    show p.slots.toList <+: (pushSlots p.slots c).toList
    unfold pushSlots
    split <;> simp

/-- **What one attempt does**: it exceeds a limit, which is remembered and changes nothing else, or
it adds to the slots at most. -/
theorem add_cases (hwf : p.WellFormed) (c : Constant) :
    (∃ e, Exceeds p c e ∧ p.add c = p.reject e) ∨
      (∀ e, ¬Exceeds p c e) ∧ (p.add c).violation = p.violation ∧
        p.slots.toList <+: (p.add c).slots.toList := by
  have hintern : c.Storable → p.add c = (p.intern c).2 →
      (∃ e, Exceeds p c e ∧ p.add c = p.reject e) ∨
        (∀ e, ¬Exceeds p c e) ∧ (p.add c).violation = p.violation ∧
          p.slots.toList <+: (p.add c).slots.toList := by
    intro hc hadd
    rw [hadd]
    rcases intern_fits_or_exceeds hwf hc with ⟨he, hrun⟩ | hfits
    · exact .inl ⟨_, he, hrun⟩
    · exact .inr hfits
  cases c with
  | utf8 text =>
    by_cases hlong : ModifiedUtf8.encodedLength text > wordMax
    · refine .inl ⟨_, .tooLong hlong, ?_⟩
      simp only [add, utf8, hlong, if_true]
    · refine hintern (Nat.le_of_not_gt hlong) ?_
      simp only [add, utf8, hlong, if_false]
  | _ => exact hintern trivial rfl

/-- An attempt at an exceeded limit is remembered unless an earlier one is. -/
theorem violation_add_eq_some (hwf : p.WellFormed) :
    (p.add c).violation = some e ↔
      p.violation = some e ∨ p.violation = none ∧ Exceeds p c e := by
  rcases add_cases hwf c with ⟨e', he', hrun⟩ | ⟨hfits, hrun, -⟩
  · rw [hrun]
    show p.violation.or (some e') = some e ↔ _
    cases hv : p.violation with
    | some old => simp
    | none =>
      constructor
      · intro h
        cases h
        exact .inr ⟨rfl, he'⟩
      · rintro (h | ⟨-, he⟩)
        · cases h
        · rw [he.unique he']
          rfl
  · rw [hrun]
    exact ⟨.inl, fun h => h.resolve_right fun hbad => hfits e hbad.2⟩

theorem slots_add (hwf : p.WellFormed) (c : Constant) :
    p.slots.toList <+: (p.add c).slots.toList := by
  rcases add_cases hwf c with ⟨e, -, hrun⟩ | ⟨-, -, hslots⟩
  · rw [hrun]
    exact List.prefix_rfl
  · exact hslots

/-! ### Sequences of attempts -/

/-- Tries to add constants, one after the other. -/
def addAll (p : ConstantPool) (cs : List Constant) : ConstantPool := cs.foldl add p

theorem addAll_append (p : ConstantPool) (cs ds : List Constant) :
    p.addAll (cs ++ ds) = (p.addAll cs).addAll ds := List.foldl_append

theorem grows_add (p : ConstantPool) (c : Constant) : Grows p (p.add c) := by
  cases c with
  | utf8 text => exact grows_utf8 p text
  | _ => exact grows_intern p trivial

theorem Filed.add (h : p.Filed) (c : Constant) : (p.add c).Filed := by
  cases c with
  | utf8 text => exact h.utf8 text
  | _ => exact h.intern _

/-- The pool after attempts on the empty one. -/
def ofConstants (cs : List Constant) : ConstantPool := empty.addAll cs

theorem ofConstants_concat (cs : List Constant) (c : Constant) :
    ofConstants (cs ++ [c]) = (ofConstants cs).add c := addAll_append empty cs [c]

theorem wellFormed_ofConstants (cs : List Constant) : (ofConstants cs).WellFormed := by
  have hinv : Grows empty (ofConstants cs) ∧ (ofConstants cs).Filed := by
    induction cs using List.reverseRecOn with
    | nil => exact ⟨.refl _, filed_empty⟩
    | append_singleton cs c ih =>
      rw [ofConstants_concat]
      exact ⟨ih.1.trans (grows_add _ c), ih.2.add c⟩
  exact wellFormed_of_listed (hinv.1.listed listed_empty) (hinv.1.coherent coherent_empty) hinv.2

/-- Constants keep their places along a sequence of attempts. -/
theorem slots_ofConstants (cs ds : List Constant) :
    (ofConstants cs).slots.toList <+: (ofConstants (cs ++ ds)).slots.toList := by
  induction ds using List.reverseRecOn with
  | nil =>
    rw [List.append_nil]
  | append_singleton ds c ih =>
    rw [← List.append_assoc, ofConstants_concat]
    exact ih.trans (slots_add (wellFormed_ofConstants _) c)

/-- The attempt at a position does not fit the pool that the earlier ones have made. -/
def ExceedsAt (cs : List Constant) (k : Nat) (e : LimitError) : Prop :=
  ∃ c, cs[k]? = some c ∧ Exceeds (ofConstants (cs.take k)) c e

/-- The attempt at a position is the first one that does not fit. -/
def FirstExcess (cs : List Constant) (k : Nat) (e : LimitError) : Prop :=
  ExceedsAt cs k e ∧ ∀ j < k, ∀ e', ¬ExceedsAt cs j e'

variable {cs ds : List Constant} {k : Nat}

theorem ExceedsAt.lt (h : ExceedsAt cs k e) : k < cs.length := by
  obtain ⟨c, hc, -⟩ := h
  exact (List.getElem?_eq_some_iff.1 hc).1

/-- Later attempts do not count for earlier ones. -/
theorem exceedsAt_append (h : k < cs.length) : ExceedsAt (cs ++ ds) k e ↔ ExceedsAt cs k e := by
  unfold ExceedsAt
  rw [List.getElem?_append_left h, List.take_append_of_le_length (Nat.le_of_lt h)]

theorem exceedsAt_concat :
    ExceedsAt (cs ++ [c]) k e ↔
      ExceedsAt cs k e ∨ k = cs.length ∧ Exceeds (ofConstants cs) c e := by
  rcases Nat.lt_trichotomy k cs.length with hlt | rfl | hgt
  · rw [exceedsAt_append hlt]
    exact ⟨.inl, fun h => h.resolve_right fun hlast => by omega⟩
  · have hlast : ExceedsAt (cs ++ [c]) cs.length e ↔ Exceeds (ofConstants cs) c e := by
      simp [ExceedsAt]
    rw [hlast]
    exact ⟨fun h => .inr ⟨rfl, h⟩, fun h => h.elim (fun h => absurd h.lt (by omega)) And.right⟩
  · constructor
    · intro h
      have hlt := h.lt
      rw [List.length_append, List.length_singleton] at hlt
      omega
    · rintro (h | ⟨heq, -⟩)
      · exact absurd h.lt (by omega)
      · omega

theorem FirstExcess.append (h : FirstExcess cs k e) : FirstExcess (cs ++ ds) k e :=
  ⟨(exceedsAt_append h.1.lt).2 h.1,
    fun j hj e' he' => h.2 j hj e' ((exceedsAt_append (by have hlt := h.1.lt; omega)).1 he')⟩

theorem violation_ofConstants_eq_none :
    (ofConstants cs).violation = none ↔ ∀ k e, ¬ExceedsAt cs k e := by
  induction cs using List.reverseRecOn with
  | nil => exact ⟨fun _ k e h => absurd h.lt (Nat.not_lt_zero k), fun _ => rfl⟩
  | append_singleton cs c ih =>
    rw [ofConstants_concat, Option.eq_none_iff_forall_ne_some]
    constructor
    · intro hclean k e hk
      have hnone : (ofConstants cs).violation = none := by
        rw [Option.eq_none_iff_forall_ne_some]
        intro e' he'
        exact hclean e' ((violation_add_eq_some (wellFormed_ofConstants cs)).2 (.inl he'))
      rcases exceedsAt_concat.1 hk with hold | ⟨-, hnew⟩
      · exact ih.1 hnone k e hold
      · exact hclean e
          ((violation_add_eq_some (wellFormed_ofConstants cs)).2 (.inr ⟨hnone, hnew⟩))
    · intro hnever e he
      have hnone : (ofConstants cs).violation = none :=
        ih.2 fun k e' hk => hnever k e' (exceedsAt_concat.2 (.inl hk))
      rcases (violation_add_eq_some (wellFormed_ofConstants cs)).1 he with hold | ⟨-, hnew⟩
      · cases hnone.symm.trans hold
      · exact hnever _ e (exceedsAt_concat.2 (.inr ⟨rfl, hnew⟩))

/-- **The limit that a pool remembers is the first one exceeded.** -/
theorem violation_ofConstants_eq_some :
    (ofConstants cs).violation = some e ↔ ∃ k, FirstExcess cs k e := by
  induction cs using List.reverseRecOn with
  | nil =>
    constructor
    · intro h
      cases h
    · rintro ⟨k, hk, -⟩
      exact absurd hk.lt (Nat.not_lt_zero k)
  | append_singleton cs c ih =>
    rw [ofConstants_concat, violation_add_eq_some (wellFormed_ofConstants cs), ih,
      violation_ofConstants_eq_none]
    constructor
    · rintro (⟨k, hk⟩ | ⟨hnever, hnew⟩)
      · exact ⟨k, hk.append⟩
      · refine ⟨cs.length, exceedsAt_concat.2 (.inr ⟨rfl, hnew⟩), fun j hj e' he' => ?_⟩
        exact hnever j e' ((exceedsAt_append hj).1 he')
    · rintro ⟨k, hk, hfirst⟩
      rcases exceedsAt_concat.1 hk with hold | ⟨rfl, hnew⟩
      · exact .inl ⟨k, hold, fun j hj e' he' => hfirst j hj e' (exceedsAt_concat.2 (.inl he'))⟩
      · refine .inr ⟨fun j e' he' => ?_, hnew⟩
        exact hfirst j he'.lt e' (exceedsAt_concat.2 (.inl he'))

end ConstantPool

/-! ### The attempts of an operation -/

open ConstantPool

/-- The attempts to name a class. -/
def classAttempts (p : ConstantPool) (name : String) : List Constant :=
  [.utf8 name, .classRef (p.utf8 name).1]

/-- The attempts to add a name and a descriptor. -/
def nameAndTypeAttempts (p : ConstantPool) (name descriptor : String) : List Constant :=
  [.utf8 name, .utf8 descriptor,
    .nameAndType (p.utf8 name).1 ((p.utf8 name).2.utf8 descriptor).1]

/-- The attempts to name a member: its class, its name and descriptor, then the reference. -/
def memberAttempts (p : ConstantPool) (kind : MemberKind) (owner name descriptor : String) :
    List Constant :=
  classAttempts p owner ++ nameAndTypeAttempts (p.classRef owner).2 name descriptor ++
    [refConstant kind (p.classRef owner).1 ((p.classRef owner).2.nameAndType name descriptor).1]

/-- The constants that an operation tries to add to a pool, in order. -/
def Interning.attempts (p : ConstantPool) : Interning → List Constant
  | .utf8 text => [.utf8 text]
  | .classRef name => classAttempts p name
  | .stringRef text => [.utf8 text, .stringRef (p.utf8 text).1]
  | .integer value => [.integer value]
  | .float bits => [.float bits]
  | .long value => [.long value]
  | .double bits => [.double bits]
  | .nameAndType name descriptor => nameAndTypeAttempts p name descriptor
  | .fieldRef owner name descriptor => memberAttempts p .field owner name descriptor
  | .methodRef owner name type => memberAttempts p .method owner name type.descriptor
  | .interfaceMethodRef owner name type =>
    memberAttempts p .interfaceMethod owner name type.descriptor

theorem addAll_memberAttempts (p : ConstantPool) (kind : MemberKind)
    (owner name descriptor : String) :
    p.addAll (memberAttempts p kind owner name descriptor) =
      (p.memberRef kind owner name descriptor).2 := by
  have hclass : p.addAll (classAttempts p owner) = (p.classRef owner).2 := rfl
  have hmember : (p.classRef owner).2.addAll
      (nameAndTypeAttempts (p.classRef owner).2 name descriptor) =
        ((p.classRef owner).2.nameAndType name descriptor).2 := rfl
  rw [memberAttempts, addAll_append, addAll_append, hclass, hmember]
  cases kind <;> rfl

/-- **An operation does what its attempts do.** -/
theorem Interning.apply_eq_addAll (p : ConstantPool) (op : Interning) :
    (op.apply p).2 = p.addAll (op.attempts p) := by
  cases op with
  | fieldRef owner name descriptor =>
    simp only [Interning.apply, Interning.attempts, fieldRef_eq, addAll_memberAttempts]
  | methodRef owner name type =>
    simp only [Interning.apply, Interning.attempts, methodRef_eq, addAll_memberAttempts]
  | interfaceMethodRef owner name type =>
    simp only [Interning.apply, Interning.attempts, interfaceMethodRef_eq, addAll_memberAttempts]
  | _ => rfl

namespace ConstantPool

/-- The constants that operations try to add, starting from a pool. -/
def attemptsFrom (p : ConstantPool) : List Interning → List Constant
  | [] => []
  | op :: ops => op.attempts p ++ attemptsFrom (op.apply p).2 ops

/-- The constants that operations try to add to the empty pool, in order. -/
def attempts (ops : List Interning) : List Constant := attemptsFrom empty ops

theorem addAll_attemptsFrom (ops : List Interning) :
    ∀ p : ConstantPool,
      p.addAll (attemptsFrom p ops) = ops.foldl (fun p op => (op.apply p).2) p := by
  induction ops with
  | nil =>
    intro p
    rfl
  | cons op ops ih =>
    intro p
    rw [attemptsFrom, addAll_append, ← Interning.apply_eq_addAll, ih, List.foldl_cons]

/-- **Operations make the pool that their attempts make.** -/
theorem ofInternings_eq_ofConstants (ops : List Interning) :
    ofInternings ops = ofConstants (attempts ops) := (addAll_attemptsFrom ops empty).symm

theorem wellFormed_ofInternings (ops : List Interning) : (ofInternings ops).WellFormed := by
  rw [ofInternings_eq_ofConstants]
  exact wellFormed_ofConstants _

theorem attemptsFrom_append (ops rest : List Interning) :
    ∀ p : ConstantPool, attemptsFrom p (ops ++ rest) =
      attemptsFrom p ops ++ attemptsFrom (ops.foldl (fun p op => (op.apply p).2) p) rest := by
  induction ops with
  | nil =>
    intro p
    rfl
  | cons op ops ih =>
    intro p
    rw [List.cons_append, attemptsFrom, ih, attemptsFrom, List.append_assoc, List.foldl_cons]

theorem check_eq_error {p : ConstantPool} {e : LimitError} :
    p.check = .error e ↔ p.violation = some e := by
  unfold check
  cases p.violation <;> simp

/-- The report of a pool is the first limit that an attempt exceeded. -/
theorem check_ofInternings_eq_error (ops : List Interning) (e : LimitError) :
    (ofInternings ops).check = .error e ↔ ∃ k, FirstExcess (attempts ops) k e := by
  rw [check_eq_error, ofInternings_eq_ofConstants, violation_ofConstants_eq_some]

theorem exists_check_eq_error (ops : List Interning) :
    (∃ e, (ofInternings ops).check = .error e) ↔ ∃ k e, ExceedsAt (attempts ops) k e := by
  simp only [check_eq_error, ofInternings_eq_ofConstants]
  rw [← Option.ne_none_iff_exists', ne_eq, violation_ofConstants_eq_none]
  push Not
  rfl

/-- **The representation of a pool and its limits.**  After any named operations a pool is
well-formed. Further operations keep every slot, also when they exceed a limit. The pool reports a
limit exactly if some attempt exceeded one, and it reports the first such limit, from then on. -/
theorem representation_ofInternings (ops rest : List Interning) :
    (ofInternings ops).WellFormed ∧
      (ofInternings ops).slots.toList <+: (ofInternings (ops ++ rest)).slots.toList ∧
      ((∃ e, (ofInternings ops).check = .error e) ↔ ∃ k e, ExceedsAt (attempts ops) k e) ∧
      ∀ e, ((ofInternings ops).check = .error e ↔ ∃ k, FirstExcess (attempts ops) k e) ∧
        ((ofInternings ops).check = .error e → (ofInternings (ops ++ rest)).check = .error e) := by
  have hsplit := attemptsFrom_append ops rest empty
  refine ⟨wellFormed_ofInternings ops, ?_, exists_check_eq_error ops,
    fun e => ⟨check_ofInternings_eq_error ops e, fun h => ?_⟩⟩
  · rw [ofInternings_eq_ofConstants, ofInternings_eq_ofConstants, attempts, attempts, hsplit]
    exact slots_ofConstants _ _
  · obtain ⟨k, hk⟩ := (check_ofInternings_eq_error ops e).1 h
    refine (check_ofInternings_eq_error _ e).2 ⟨k, ?_⟩
    rw [attempts, hsplit]
    exact hk.append

/-- A text that is one byte too long. -/
def overlongText : String := String.ofList (List.replicate 65536 'x')

theorem encodedLength_replicate (n : Nat) :
    ModifiedUtf8.encodedLength (String.ofList (List.replicate n 'x')) = n := by
  rw [ModifiedUtf8.encodedLength, String.toList_ofList]
  induction n with
  | zero => rfl
  | succ n ih =>
    rw [List.replicate_succ, List.foldr_cons, ih]
    exact Nat.add_comm 1 n

theorem encodedLength_overlongText : ModifiedUtf8.encodedLength overlongText = 65536 :=
  encodedLength_replicate 65536

/-- A class with a name that is too long is reported, also after an operation that fits. -/
theorem representation_overlongText :
    (ofInternings [.classRef overlongText]).check = .error (.textTooLong 65536) ∧
      (ofInternings ([.classRef overlongText] ++ [.long 7])).check =
        .error (.textTooLong 65536) := by
  obtain ⟨-, -, -, hreport⟩ := representation_ofInternings [.classRef overlongText] [.long 7]
  obtain ⟨hfirst, hstays⟩ := hreport (.textTooLong 65536)
  have hexceeds : Exceeds empty (.utf8 overlongText) (.textTooLong 65536) := by
    rw [← encodedLength_overlongText]
    refine .tooLong ?_
    rw [encodedLength_overlongText]
    omega
  have herror : (ofInternings [.classRef overlongText]).check = .error (.textTooLong 65536) :=
    hfirst.2 ⟨0, ⟨_, rfl, hexceeds⟩, fun j hj => absurd hj (Nat.not_lt_zero j)⟩
  exact ⟨herror, hstays herror⟩

end ConstantPool

end ClassForge
