import ClassForge.ClassFile.Image
import ClassForge.Proofs.ClassFile.Reading
import ClassForge.Proofs.Pool.Growth
import ClassForge.Proofs.Text.ModifiedUtf8

/-!
# Reading constants back

A pool is written as the list of its constants and read back slot by slot.

* `reads_constant` — **PROVED**: the bytes of a storable constant are read as that constant;
* `toList_of_lists` — writing lists the constants in the order in which they were added;
* `reads_pool_of_constants` — **PROVED**: a list of constants behind its count is read as a pool;
* `reads_pool` — **PROVED**: a written pool is read as a pool with the same slots.
-/

namespace ClassForge

open Reader ClassImage

/-! ### One constant -/

theorem reads_utf8 {text : String} (h : ModifiedUtf8.encodedLength text ≤ wordMax) (index : Nat) :
    Reads (readConstant index) (Constant.utf8 text).encode (.utf8 text) := by
  have hlen : (ModifiedUtf8.encode text).length ≤ wordMax := by
    rw [ModifiedUtf8.length_encode]
    exact h
  obtain ⟨hcount, hvalue⟩ := reads_count16 hlen
  refine (reads_u8 1).bind (hcount.bind ?_)
  rw [hvalue]
  refine (reads_bytes rfl).bind_last ?_
  rw [ModifiedUtf8.decode?_encode]
  exact Reads.pure _

/-- Two words that make up a constant. -/
theorem reads_pair {α : Type} (make : UInt16 → UInt16 → α) (a b : UInt16) :
    Reads (do
      let x ← u16
      let y ← u16
      return make x y) (word16 a ++ word16 b) (make a b) :=
  (reads_u16 a).bind ((reads_u16 b).map (make a))

/-- **A storable constant is read back from its bytes.** -/
theorem reads_constant {c : Constant} (h : c.Storable) (index : Nat) :
    Reads (readConstant index) c.encode c := by
  cases c with
  | utf8 text => exact reads_utf8 h index
  | integer value =>
    have hword := (reads_u32 value.toUInt32).map fun w : UInt32 => Constant.integer w.toInt32
    exact (reads_u8 3).bind hword
  | float bits => exact (reads_u8 4).bind ((reads_u32 bits).map Constant.float)
  | long value =>
    have hword := (reads_u64 value.toUInt64).map fun w : UInt64 => Constant.long w.toInt64
    exact (reads_u8 5).bind hword
  | double bits => exact (reads_u8 6).bind ((reads_u64 bits).map Constant.double)
  | classRef name => exact (reads_u8 7).bind ((reads_u16 name).map Constant.classRef)
  | stringRef text => exact (reads_u8 8).bind ((reads_u16 text).map Constant.stringRef)
  | fieldRef owner member => exact (reads_u8 9).bind (reads_pair Constant.fieldRef owner member)
  | methodRef owner member => exact (reads_u8 10).bind (reads_pair Constant.methodRef owner member)
  | interfaceMethodRef owner member =>
    exact (reads_u8 11).bind (reads_pair Constant.interfaceMethodRef owner member)
  | nameAndType name descriptor =>
    exact (reads_u8 12).bind (reads_pair Constant.nameAndType name descriptor)

namespace ConstantPool

/-! ### The list of constants -/

theorem filterMap_pushSlots (slots : Array (Option Constant)) (c : Constant) :
    (pushSlots slots c).toList.filterMap id = slots.toList.filterMap id ++ [c] := by
  unfold pushSlots
  split <;> simp

theorem filterMap_foldl_pushSlots (cs : List Constant) :
    ∀ slots : Array (Option Constant),
      (cs.foldl pushSlots slots).toList.filterMap id = slots.toList.filterMap id ++ cs := by
  induction cs with
  | nil =>
    intro slots
    simp
  | cons c cs ih =>
    intro slots
    rw [List.foldl_cons, ih, filterMap_pushSlots, List.append_assoc, List.singleton_append]

theorem map_snd_toList (p : ConstantPool) :
    p.toList.map Prod.snd = p.slots.toList.filterMap id := by
  have hsnd : ∀ x : Option Constant × Nat,
      ((x.1.map fun c => (x.2, c)).map Prod.snd) = x.1 := by
    rintro ⟨_ | c, i⟩ <;> rfl
  rw [toList, List.map_filterMap]
  have hzip : p.slots.toList.zipIdx.filterMap (fun x => x.1) = p.slots.toList.filterMap id := by
    conv_rhs => rw [← List.zipIdx_map_fst 0 p.slots.toList, List.filterMap_map]
    rfl
  rw [← hzip]
  exact congrArg (fun f => List.filterMap f p.slots.toList.zipIdx) (funext hsnd)

/-- The bytes of a pool are those of its constants, in order. -/
theorem flatMap_toList {p : ConstantPool} {cs : List Constant} (h : p.Lists cs) :
    p.toList.flatMap (fun (_, c) => c.encode) = cs.flatMap Constant.encode := by
  have hcs : p.toList.map Prod.snd = cs := by
    rw [map_snd_toList, h.slots, filterMap_foldl_pushSlots]
    simp
  rw [← hcs, List.flatMap_map]

/-! ### Reading them -/

theorem slots_foldl_append (cs : List Constant) :
    ∀ p : ConstantPool, (cs.foldl append p).slots = cs.foldl pushSlots p.slots := by
  induction cs with
  | nil =>
    intro p
    rfl
  | cons c cs ih =>
    intro p
    exact ih (p.append c)

theorem size_le_foldl_append (cs : List Constant) :
    ∀ p : ConstantPool, p.slots.size + cs.length ≤ (cs.foldl append p).slots.size := by
  induction cs with
  | nil =>
    intro p
    exact Nat.le_refl _
  | cons c cs ih =>
    intro p
    have hrest := ih (p.append c)
    have hsize : (p.append c).slots.size = p.slots.size + c.width := size_pushSlots p.slots c
    have hwidth := c.width_pos
    rw [List.foldl_cons, List.length_cons]
    omega

theorem readConstants_of_le {count index : Nat} (h : count ≤ index) (fuel : Nat)
    (p : ConstantPool) : readConstants count fuel index p = pure (index, p) := by
  cases fuel with
  | zero => rfl
  | succ fuel =>
    funext input
    rw [readConstants, if_neg (Nat.not_lt.2 h)]
    rfl

/-- Constants with room for more behind them are read before those. -/
theorem reads_constants_append {count : Nat} (hcount : count ≤ wordMax) {bytes : List UInt8}
    {fuel : Nat} {r : Nat × ConstantPool} :
    ∀ (cs : List Constant) (p : ConstantPool), (∀ c ∈ cs, c.Storable) →
      (cs.foldl append p).slots.size ≤ count →
      Reads (readConstants count fuel (cs.foldl append p).slots.size (cs.foldl append p)) bytes r →
      Reads (readConstants count (cs.length + fuel) p.slots.size p)
        (cs.flatMap Constant.encode ++ bytes) r := by
  intro cs
  induction cs with
  | nil =>
    intro p _ _ hrest
    rw [List.length_nil, Nat.zero_add]
    exact hrest
  | cons c cs ih =>
    intro p hstorable hsize hrest rest
    have hlen := size_le_foldl_append cs (p.append c)
    have happend : (p.append c).slots.size = p.slots.size + c.width := size_pushSlots p.slots c
    have hwidth := c.width_pos
    rw [List.foldl_cons] at hsize
    have hindex : min (p.slots.size + c.width) wordMax = (p.append c).slots.size := by
      omega
    have hfuel : (c :: cs).length + fuel = cs.length + fuel + 1 := by
      rw [List.length_cons]
      omega
    have hhead := reads_constant (hstorable c List.mem_cons_self) p.slots.size
    have htail := ih (p.append c) (fun d hd => hstorable d (List.mem_cons_of_mem _ hd)) hsize
      hrest rest
    rw [hfuel, readConstants, if_pos (by omega), List.flatMap_cons, List.append_assoc,
      List.append_assoc, hhead]
    simp only [hindex]
    rw [← List.append_assoc]
    exact htail

/-- **A list of constants is read as a pool**: the index reaches the count at the end of the last
one. -/
theorem reads_pool_of_constants {cs : List Constant} (hstorable : ∀ c ∈ cs, c.Storable)
    (hsize : (cs.foldl append empty).slots.size ≤ wordMax) :
    Reads readPool (count16 (cs.foldl append empty).slots.size ++ cs.flatMap Constant.encode)
      (cs.foldl append empty) := by
  obtain ⟨hread, hvalue⟩ := reads_count16 hsize
  have hlen := size_le_foldl_append cs empty
  obtain ⟨fuel, hfuel⟩ := Nat.exists_eq_add_of_le ((Nat.le_add_left _ _).trans hlen)
  have hdone := readConstants_of_le (Nat.le_refl (cs.foldl append empty).slots.size) fuel
    (cs.foldl append empty)
  have hconstants := reads_constants_append hsize cs empty hstorable (Nat.le_refl _)
    (hdone ▸ Reads.pure _)
  rw [← hfuel, List.append_nil] at hconstants
  refine hread.bind ?_
  rw [hvalue]
  refine hconstants.bind_last ?_
  simp only [ne_eq, not_true_eq_false, if_false]
  exact Reads.pure _

/-- **A written pool is read back slot by slot.** -/
theorem reads_pool {p : ConstantPool} (h : p.Listed) :
    ∃ q : ConstantPool, q.slots = p.slots ∧ q.violation = none ∧
      Reads readPool (word16 p.count ++ p.toList.flatMap fun (_, c) => c.encode) q := by
  obtain ⟨cs, hcs⟩ := h
  have hslots : (cs.foldl append empty).slots = p.slots := by
    rw [slots_foldl_append, hcs.slots]
    rfl
  refine ⟨cs.foldl append empty, hslots, ?_, ?_⟩
  · exact List.foldlRecOn (motive := fun q : ConstantPool => q.violation = none) cs append
      (b := empty) rfl fun q hq c _ => hq
  · have hpool := reads_pool_of_constants hcs.storable (by rw [hslots]; exact hcs.size)
    rw [hslots] at hpool
    rw [flatMap_toList hcs]
    exact hpool

end ConstantPool

end ClassForge
