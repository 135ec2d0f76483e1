import Mathlib
import ClassForge.Text.ModifiedUtf8

/-!
# Modified UTF-8 reads back

Every text is decoded from its encoding. The proof goes unit by unit: a unit below the bound of
its form is read from the bytes of that form (`decodeUnits?_twoBytes` and its siblings), a
character is joined from its units (`joinUnits?_units`), and both are generic in what has been
read before.

* `encode_keeps_text` — **PROVED**: the encoding has the length that is counted beforehand, holds
  no zero byte, and is decoded to the text.
-/

namespace ClassForge.ModifiedUtf8

/-- The UTF-16 units of a character. -/
def units (c : Char) : List Nat :=
  if c.toNat ≤ 0xffff then [c.toNat] else [leadUnit c.toNat, trailUnit c.toNat]

/-! ### Lengths -/

theorem length_encodeChar (c : Char) : (encodeChar c).length = charLength c := by
  unfold encodeChar charLength
  dsimp only
  split_ifs <;>
    simp only [twoBytes, threeBytes, List.length_append, List.length_cons, List.length_nil] <;>
    omega

theorem length_encode (s : String) : (encode s).length = encodedLength s := by
  unfold encode encodedLength
  induction s.toList with
  | nil => rfl
  | cons c cs ih =>
    rw [List.flatMap_cons, List.length_append, ih, length_encodeChar]
    rfl

theorem length_encode_append (s t : String) :
    (encode (s ++ t)).length = (encode s).length + (encode t).length := by
  rw [encode, String.toList_append, List.flatMap_append, List.length_append]
  rfl

theorem length_encode_replicate (n : Nat) :
    (encode (String.ofList (List.replicate n 'x'))).length = n := by
  have hchar : (encodeChar 'x').length = 1 := by decide
  rw [encode, String.toList_ofList, List.length_flatMap, List.map_replicate, hchar,
    List.sum_replicate, smul_eq_mul, Nat.mul_one]

/-! ### Units -/

theorem toNat_ofNat_of_lt {n : Nat} (h : n < 256) : (UInt8.ofNat n).toNat = n := by
  rw [UInt8.toNat_ofNat']
  exact Nat.mod_eq_of_lt h

theorem isContinuation_ofNat {n : Nat} (h : n < 64) :
    isContinuation (UInt8.ofNat (0x80 + n)) = true := by
  have hval : (UInt8.ofNat (0x80 + n)).toNat = 0x80 + n := toNat_ofNat_of_lt (by omega)
  simp only [isContinuation, Bool.and_eq_true, decide_eq_true_eq, UInt8.le_iff_toNat_le, hval]
  constructor
  · show 128 ≤ 0x80 + n
    omega
  · show 0x80 + n ≤ 191
    omega

/-- A byte is compared as the number it spells. -/
theorem ofNat_lt_ofNat {n m : Nat} (hn : n < 256) (hm : m < 256) :
    UInt8.ofNat n < UInt8.ofNat m ↔ n < m := by
  rw [UInt8.lt_iff_toNat_lt, toNat_ofNat_of_lt hn, toNat_ofNat_of_lt hm]

theorem ofNat_eq_zero {n : Nat} (hn : n < 256) : UInt8.ofNat n = 0 ↔ n = 0 := by
  rw [← UInt8.toNat_inj, toNat_ofNat_of_lt hn]
  rfl

theorem decodeUnits?_oneByte {n : Nat} (hpos : 0 < n) (hle : n ≤ 0x7f) (rest : List UInt8)
    (done : List Nat) :
    decodeUnits? (UInt8.ofNat n :: rest) done = decodeUnits? rest (n :: done) := by
  have hzero : ¬UInt8.ofNat n = 0 := by
    rw [ofNat_eq_zero (by omega)]
    omega
  have hlow : UInt8.ofNat n < 0x80 :=
    (ofNat_lt_ofNat (m := 0x80) (by omega) (by omega)).2 (by omega)
  rw [decodeUnits?.eq_def]
  dsimp only
  rw [if_neg hzero, if_pos hlow, toNat_ofNat_of_lt (by omega)]

theorem decodeUnits?_twoBytes {n : Nat} (hle : n ≤ 0x7ff) (rest : List UInt8) (done : List Nat) :
    decodeUnits? (twoBytes n ++ rest) done = decodeUnits? rest (n :: done) := by
  have hlead : (0xc0 + n / 64) < 256 := by omega
  have hzero : ¬UInt8.ofNat (0xc0 + n / 64) = 0 := by
    rw [ofNat_eq_zero hlead]
    omega
  have h80 : ¬UInt8.ofNat (0xc0 + n / 64) < 0x80 := fun h => by
    have := (ofNat_lt_ofNat (m := 0x80) hlead (by omega)).1 h
    omega
  have hc0 : ¬UInt8.ofNat (0xc0 + n / 64) < 0xc0 := fun h => by
    have := (ofNat_lt_ofNat (m := 0xc0) hlead (by omega)).1 h
    omega
  have he0 : UInt8.ofNat (0xc0 + n / 64) < 0xe0 :=
    (ofNat_lt_ofNat (m := 0xe0) hlead (by omega)).2 (by omega)
  have hcont := isContinuation_ofNat (n := n % 64) (by omega)
  have hunit : (0xc0 + n / 64 - 0xc0) * 64 + (0x80 + n % 64 - 0x80) = n := by omega
  rw [twoBytes, List.cons_append, List.cons_append, List.nil_append,
    decodeUnits?.eq_def]
  dsimp only
  rw [if_neg hzero, if_neg h80, if_neg hc0, if_pos he0, if_pos hcont, toNat_ofNat_of_lt hlead,
    toNat_ofNat_of_lt (by omega), hunit]

theorem decodeUnits?_threeBytes {n : Nat} (hle : n ≤ 0xffff) (rest : List UInt8)
    (done : List Nat) :
    decodeUnits? (threeBytes n ++ rest) done = decodeUnits? rest (n :: done) := by
  have hlead : (0xe0 + n / 4096) < 256 := by omega
  have hzero : ¬UInt8.ofNat (0xe0 + n / 4096) = 0 := by
    rw [ofNat_eq_zero hlead]
    omega
  have h80 : ¬UInt8.ofNat (0xe0 + n / 4096) < 0x80 := fun h => by
    have := (ofNat_lt_ofNat (m := 0x80) hlead (by omega)).1 h
    omega
  have hc0 : ¬UInt8.ofNat (0xe0 + n / 4096) < 0xc0 := fun h => by
    have := (ofNat_lt_ofNat (m := 0xc0) hlead (by omega)).1 h
    omega
  have he0 : ¬UInt8.ofNat (0xe0 + n / 4096) < 0xe0 := fun h => by
    have := (ofNat_lt_ofNat (m := 0xe0) hlead (by omega)).1 h
    omega
  have hf0 : UInt8.ofNat (0xe0 + n / 4096) < 0xf0 :=
    (ofNat_lt_ofNat (m := 0xf0) hlead (by omega)).2 (by omega)
  have hmid := isContinuation_ofNat (n := n / 64 % 64) (by omega)
  have hlast := isContinuation_ofNat (n := n % 64) (by omega)
  have hunit : (0xe0 + n / 4096 - 0xe0) * 4096 + (0x80 + n / 64 % 64 - 0x80) * 64 +
      (0x80 + n % 64 - 0x80) = n := by omega
  rw [threeBytes, List.cons_append, List.cons_append, List.cons_append, List.nil_append,
    decodeUnits?.eq_def]
  dsimp only
  rw [if_neg hzero, if_neg h80, if_neg hc0, if_neg he0, if_pos hf0, hmid, hlast,
    if_pos (Bool.and_self true), toNat_ofNat_of_lt hlead, toNat_ofNat_of_lt (by omega),
    toNat_ofNat_of_lt (by omega), hunit]

/-! ### Characters -/

/-- A character is a scalar value: it is no surrogate and not beyond the last plane. -/
theorem toNat_bounds (c : Char) :
    (c.toNat < 0xd800 ∨ 0xe000 ≤ c.toNat) ∧ c.toNat < 0x110000 := by
  have h : c.toNat.isValidChar := c.valid
  unfold Nat.isValidChar at h
  omega

/-- The units of a character are read from its bytes. -/
theorem decodeUnits?_encodeChar (c : Char) (rest : List UInt8) (done : List Nat) :
    decodeUnits? (encodeChar c ++ rest) done = decodeUnits? rest ((units c).reverse ++ done) := by
  have hbounds := toNat_bounds c
  unfold encodeChar units
  dsimp only
  by_cases h₁ : 1 ≤ c.toNat ∧ c.toNat ≤ 0x7f
  · rw [if_pos h₁, if_pos (by omega)]
    exact decodeUnits?_oneByte h₁.1 h₁.2 rest done
  · rw [if_neg h₁]
    by_cases h₂ : c.toNat ≤ 0x7ff
    · rw [if_pos h₂, if_pos (by omega)]
      exact decodeUnits?_twoBytes h₂ rest done
    · rw [if_neg h₂]
      by_cases h₃ : c.toNat ≤ 0xffff
      · rw [if_pos h₃, if_pos h₃]
        exact decodeUnits?_threeBytes h₃ rest done
      · have hlead : leadUnit c.toNat ≤ 0xffff := by
          unfold leadUnit
          omega
        have htrail : trailUnit c.toNat ≤ 0xffff := by
          unfold trailUnit
          omega
        rw [if_neg h₃, if_neg h₃, List.append_assoc, decodeUnits?_threeBytes hlead,
          decodeUnits?_threeBytes htrail]
        rfl

/-- A character is joined from its units. -/
theorem joinUnits?_units (c : Char) (rest : List Nat) (done : List Char) :
    joinUnits? (units c ++ rest) done = joinUnits? rest (c :: done) := by
  obtain ⟨hscalar, hmax⟩ := toNat_bounds c
  have hchar : Char.ofNat c.toNat = c := Char.ofNat_toNat c
  unfold units
  by_cases h : c.toNat ≤ 0xffff
  · rw [if_pos h, List.singleton_append, joinUnits?.eq_def]
    dsimp only
    rw [if_pos hscalar, hchar]
  · have hlead : leadUnit c.toNat = 0xd800 + (c.toNat - 0x10000) / 1024 := rfl
    have htrail : trailUnit c.toNat = 0xdc00 + (c.toNat - 0x10000) % 1024 := rfl
    have hjoin : 0x10000 + (leadUnit c.toNat - 0xd800) * 1024 + (trailUnit c.toNat - 0xdc00)
        = c.toNat := by
      omega
    rw [if_neg h, List.cons_append, List.cons_append, List.nil_append, joinUnits?.eq_def]
    dsimp only
    rw [if_neg (by omega), if_pos (by omega), if_pos (by omega), hjoin, hchar]

/-! ### Texts -/

theorem decodeUnits?_flatMap (cs : List Char) :
    ∀ done : List Nat,
      decodeUnits? (cs.flatMap encodeChar) done = some (done.reverse ++ cs.flatMap units) := by
  induction cs with
  | nil =>
    intro done
    simp [decodeUnits?]
  | cons c cs ih =>
    intro done
    rw [List.flatMap_cons, decodeUnits?_encodeChar, ih]
    simp

theorem joinUnits?_flatMap (cs : List Char) :
    ∀ done : List Char, joinUnits? (cs.flatMap units) done = some (done.reverse ++ cs) := by
  induction cs with
  | nil =>
    intro done
    simp [joinUnits?]
  | cons c cs ih =>
    intro done
    rw [List.flatMap_cons, joinUnits?_units, ih]
    simp

/-- **Every text is decoded from its encoding.** -/
theorem decode?_encode (s : String) : decode? (encode s) = some s := by
  unfold decode? encode
  rw [decodeUnits?_flatMap]
  simp only [List.reverse_nil, List.nil_append, joinUnits?_flatMap, String.ofList_toList]

/-! ### Bytes -/

theorem zero_ne_ofNat {n : Nat} (hpos : 0 < n) (hlt : n < 256) : 0 ≠ UInt8.ofNat n :=
  fun h => Nat.ne_of_gt hpos ((ofNat_eq_zero hlt).1 h.symm)

theorem zero_notMem_twoBytes {n : Nat} (hle : n ≤ 0x7ff) : 0 ∉ twoBytes n := by
  rw [twoBytes, List.mem_cons, List.mem_singleton]
  rintro (h | h)
  · exact zero_ne_ofNat (by omega) (by omega) h
  · exact zero_ne_ofNat (by omega) (by omega) h

theorem zero_notMem_threeBytes {n : Nat} (hle : n ≤ 0xffff) : 0 ∉ threeBytes n := by
  rw [threeBytes, List.mem_cons, List.mem_cons, List.mem_singleton]
  rintro (h | h | h)
  · exact zero_ne_ofNat (by omega) (by omega) h
  · exact zero_ne_ofNat (by omega) (by omega) h
  · exact zero_ne_ofNat (by omega) (by omega) h

/-- No byte of a character is zero, not even for U+0000. -/
theorem zero_notMem_encodeChar (c : Char) : 0 ∉ encodeChar c := by
  obtain ⟨-, hmax⟩ := toNat_bounds c
  unfold encodeChar
  dsimp only
  split_ifs with hone htwo hthree
  · rw [List.mem_singleton]
    exact zero_ne_ofNat hone.1 (by omega)
  · exact zero_notMem_twoBytes htwo
  · exact zero_notMem_threeBytes hthree
  · rw [List.mem_append, not_or]
    constructor
    · exact zero_notMem_threeBytes (by unfold leadUnit; omega)
    · exact zero_notMem_threeBytes (by unfold trailUnit; omega)

/-- **The encoding keeps every text.**  It takes up the bytes that are counted beforehand, none of
them is zero, and they are read as the text. -/
theorem encode_keeps_text (s : String) :
    (encode s).length = encodedLength s ∧ 0 ∉ encode s ∧ decode? (encode s) = some s := by
  refine ⟨length_encode s, fun hzero => ?_, decode?_encode s⟩
  obtain ⟨c, -, hc⟩ := List.mem_flatMap.1 hzero
  exact zero_notMem_encodeChar c hc

end ClassForge.ModifiedUtf8
