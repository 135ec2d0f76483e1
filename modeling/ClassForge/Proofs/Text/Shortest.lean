import ClassForge.Proofs.Inspection.Ranges
import ClassForge.Proofs.Pool.Reading

/-!
# The shortest encoding

The decoder takes a unit in any form that is long enough for it, so that one text can have several
encodings. The one that is written is the shortest of them, and the only one of its length.

* `ModifiedUtf8.Form`, `Spells` — the bytes that are read as a unit, and as several units;
* `exists_spells`, `exists_flatMap_units` — **PROVED**: accepted bytes spell units, and the
  characters that these are joined to have the same units;
* `ClassImage.allStorable_of_ofBytes` — **PROVED**: the texts of a class file fit a class file
  again;
* `ModifiedUtf8.encode_shortest` — **PROVED**: both, as one statement.
-/

namespace ClassForge

namespace ModifiedUtf8

/-! ### Forms of a unit -/

/-- The bytes that are read as a unit. A unit may be written longer than needed. -/
inductive Form : Nat → List UInt8 → Prop where
  | one {n : Nat} (hpos : 0 < n) (hle : n ≤ 0x7f) : Form n [UInt8.ofNat n]
  | two {n : Nat} (hle : n ≤ 0x7ff) : Form n (twoBytes n)
  | three {n : Nat} (hle : n ≤ 0xffff) : Form n (threeBytes n)

/-- The form that a unit is written in. -/
def encodeUnit (n : Nat) : List UInt8 :=
  if 1 ≤ n ∧ n ≤ 0x7f then [UInt8.ofNat n]
  else if n ≤ 0x7ff then twoBytes n
  else threeBytes n

namespace Form

variable {n : Nat} {bytes : List UInt8}

theorem le (h : Form n bytes) : n ≤ 0xffff := by
  cases h <;> omega

/-- No form is shorter than the one that is written. -/
theorem length_encodeUnit_le (h : Form n bytes) : (encodeUnit n).length ≤ bytes.length := by
  unfold encodeUnit
  cases h with
  | one hpos hle => rw [if_pos ⟨hpos, hle⟩]
  | two hle =>
    rw [if_pos hle]
    split
    · exact Nat.le_succ 1
    · exact Nat.le_refl 2
  | three => split_ifs <;> simp [twoBytes, threeBytes]

/-- A form of the same length is the one that is written. -/
theorem eq_encodeUnit (h : Form n bytes) (hlength : (encodeUnit n).length = bytes.length) :
    bytes = encodeUnit n := by
  unfold encodeUnit at hlength ⊢
  cases h with
  | one hpos hle => rw [if_pos ⟨hpos, hle⟩]
  | two hle =>
    rw [if_pos hle] at hlength ⊢
    split_ifs at hlength ⊢
    · cases hlength
    · rfl
  | three =>
    split_ifs at hlength ⊢
    · cases hlength
    · cases hlength
    · rfl

end Form

/-- Bytes that are read as units, form by form. -/
inductive Spells : List Nat → List UInt8 → Prop where
  | nil : Spells [] []
  | cons {n : Nat} {us : List Nat} {bytes rest : List UInt8} (h : Form n bytes)
      (hrest : Spells us rest) : Spells (n :: us) (bytes ++ rest)

namespace Spells

variable {us : List Nat} {bytes : List UInt8}

theorem le (h : Spells us bytes) : ∀ u ∈ us, u ≤ 0xffff := by
  induction h with
  | nil => exact List.forall_mem_nil _
  | cons hform _ ih => exact List.forall_mem_cons.2 ⟨hform.le, ih⟩

theorem length_flatMap_le (h : Spells us bytes) :
    (us.flatMap encodeUnit).length ≤ bytes.length := by
  induction h with
  | nil => exact Nat.le_refl 0
  | cons hform _ ih =>
    rw [List.flatMap_cons, List.length_append, List.length_append]
    exact Nat.add_le_add hform.length_encodeUnit_le ih

/-- Each form is at least as long as the one that is written, so that bytes of the same length
consist of these. -/
theorem eq_flatMap (h : Spells us bytes) (hlength : (us.flatMap encodeUnit).length = bytes.length) :
    bytes = us.flatMap encodeUnit := by
  induction h with
  | nil => rfl
  | @cons n us bytes rest hform hrest ih =>
    rw [List.flatMap_cons] at hlength ⊢
    rw [List.length_append, List.length_append] at hlength
    have hfirst := hform.length_encodeUnit_le
    have hothers := hrest.length_flatMap_le
    rw [← ih (by omega), ← hform.eq_encodeUnit (by omega)]

end Spells

/-! ### Accepted bytes -/

section Leading

variable {b c d : UInt8}

theorem toNat_of_isContinuation (h : isContinuation c = true) :
    0x80 ≤ c.toNat ∧ c.toNat ≤ 0xbf := by
  simpa [isContinuation, UInt8.le_iff_toNat_le] using h

theorem ofNat_eq {n : Nat} (h : n = b.toNat) : UInt8.ofNat n = b := by
  rw [h, UInt8.ofNat_toNat]

theorem form_one (hzero : ¬b = 0) (hlt : b < 0x80) : Form b.toNat [b] := by
  have hpos : 0 < b.toNat := Nat.pos_of_ne_zero fun h => hzero (UInt8.toNat_inj.1 h)
  have hle : b.toNat < 0x80 := UInt8.lt_iff_toNat_lt.1 hlt
  have hform := Form.one hpos (Nat.le_of_lt_succ hle)
  rwa [UInt8.ofNat_toNat] at hform

theorem form_two (hge : ¬b < 0xc0) (hlt : b < 0xe0) (hc : isContinuation c = true) :
    Form ((b.toNat - 0xc0) * 64 + (c.toNat - 0x80)) [b, c] := by
  have hlo : 0xc0 ≤ b.toNat := Nat.le_of_not_lt fun h => hge (UInt8.lt_iff_toNat_lt.2 h)
  have hhi : b.toNat < 0xe0 := UInt8.lt_iff_toNat_lt.1 hlt
  obtain ⟨hclo, hchi⟩ := toNat_of_isContinuation hc
  have hform := Form.two (n := (b.toNat - 0xc0) * 64 + (c.toNat - 0x80)) (by omega)
  rwa [twoBytes, ofNat_eq (b := b) (by omega), ofNat_eq (b := c) (by omega)] at hform

theorem form_three (hge : ¬b < 0xe0) (hlt : b < 0xf0)
    (hcd : (isContinuation c && isContinuation d) = true) :
    Form ((b.toNat - 0xe0) * 4096 + (c.toNat - 0x80) * 64 + (d.toNat - 0x80)) [b, c, d] := by
  have hlo : 0xe0 ≤ b.toNat := Nat.le_of_not_lt fun h => hge (UInt8.lt_iff_toNat_lt.2 h)
  have hhi : b.toNat < 0xf0 := UInt8.lt_iff_toNat_lt.1 hlt
  obtain ⟨hc, hd⟩ := Bool.and_eq_true_iff.1 hcd
  obtain ⟨hclo, hchi⟩ := toNat_of_isContinuation hc
  obtain ⟨hdlo, hdhi⟩ := toNat_of_isContinuation hd
  have hform := Form.three
    (n := (b.toNat - 0xe0) * 4096 + (c.toNat - 0x80) * 64 + (d.toNat - 0x80)) (by omega)
  rwa [threeBytes, ofNat_eq (b := b) (by omega), ofNat_eq (b := c) (by omega),
    ofNat_eq (b := d) (by omega)] at hform

end Leading

/-- **Accepted bytes spell their units.** -/
theorem exists_spells {bytes : List UInt8} {done us : List Nat}
    (h : decodeUnits? bytes done = some us) :
    ∃ new, us = done.reverse ++ new ∧ Spells new bytes := by
  -- A form is read off the front, and its unit put onto those read before.
  have hcons {n : Nat} {done : List Nat} {form rest : List UInt8} (hform : Form n form)
      (hrest : ∃ new, us = (n :: done).reverse ++ new ∧ Spells new rest) :
      ∃ new, us = done.reverse ++ new ∧ Spells new (form ++ rest) := by
    obtain ⟨new, hus, hspells⟩ := hrest
    refine ⟨n :: new, ?_, .cons hform hspells⟩
    rw [hus, List.reverse_cons, List.append_assoc, List.singleton_append]
  fun_induction decodeUnits? bytes done with
  | case1 done =>
    cases h
    exact ⟨[], (List.append_nil _).symm, .nil⟩
  | case3 b rest done hzero hlt ih => exact hcons (form_one hzero hlt) (ih h)
  | case5 b done _ _ hge hlt c rest hc ih => exact hcons (form_two hge hlt hc) (ih h)
  | case8 b done _ _ _ hge hlt c d rest hcd ih => exact hcons (form_three hge hlt hcd) (ih h)
  | case2 | case4 | case6 | case7 | case9 | case10 | case11 => cases h

/-! ### Joined units -/

theorem toNat_ofNat_of_scalar {n : Nat} (h : n < 0xd800 ∨ 0xe000 ≤ n ∧ n < 0x110000) :
    (Char.ofNat n).toNat = n := by
  have hvalid : n.isValidChar :=
    h.imp id fun ⟨hlo, hhi⟩ => ⟨Nat.lt_of_lt_of_le (by decide) hlo, hhi⟩
  rw [Char.ofNat, dif_pos hvalid]
  exact Char.toNat_ofNatAux hvalid

/-- A unit that is no surrogate is a character of its own. -/
theorem units_ofNat {u : Nat} (h : u < 0xd800 ∨ 0xe000 ≤ u) (hle : u ≤ 0xffff) :
    units (Char.ofNat u) = [u] := by
  rw [units, toNat_ofNat_of_scalar (by omega), if_pos hle]

/-- A character beyond U+FFFF has the two surrogates that it was joined from. -/
theorem units_ofNat_pair {u v : Nat} (hu : 0xd800 ≤ u ∧ u < 0xdc00) (hv : 0xdc00 ≤ v ∧ v < 0xe000) :
    units (Char.ofNat (0x10000 + (u - 0xd800) * 1024 + (v - 0xdc00))) = [u, v] := by
  have hlead : leadUnit (0x10000 + (u - 0xd800) * 1024 + (v - 0xdc00)) = u := by
    unfold leadUnit
    omega
  have htrail : trailUnit (0x10000 + (u - 0xd800) * 1024 + (v - 0xdc00)) = v := by
    unfold trailUnit
    omega
  rw [units, toNat_ofNat_of_scalar (by omega), if_neg (by omega), hlead, htrail]

/-- **Units are those of the characters that they were joined to.** -/
theorem exists_flatMap_units {us : List Nat} {done cs : List Char}
    (h : joinUnits? us done = some cs) (hle : ∀ u ∈ us, u ≤ 0xffff) :
    ∃ new, cs = done.reverse ++ new ∧ new.flatMap units = us := by
  have hcons {c : Char} {done : List Char} {us : List Nat}
      (hrest : ∃ new, cs = (c :: done).reverse ++ new ∧ new.flatMap units = us) :
      ∃ new, cs = done.reverse ++ new ∧ new.flatMap units = units c ++ us := by
    obtain ⟨new, hcs, hnew⟩ := hrest
    refine ⟨c :: new, ?_, by rw [List.flatMap_cons, hnew]⟩
    rw [hcs, List.reverse_cons, List.append_assoc, List.singleton_append]
  fun_induction joinUnits? us done with
  | case1 done =>
    cases h
    exact ⟨[], (List.append_nil _).symm, rfl⟩
  | case2 u rest done hscalar ih =>
    obtain ⟨hu, hrest⟩ := List.forall_mem_cons.1 hle
    have hunits := units_ofNat hscalar hu
    simpa only [hunits, List.singleton_append] using hcons (ih h hrest)
  | case3 u done hscalar hlead v rest htrail ih =>
    have hrest := (List.forall_mem_cons.1 (List.forall_mem_cons.1 hle).2).2
    have hunits := units_ofNat_pair (u := u) ⟨by omega, hlead⟩ htrail
    simpa only [hunits, List.cons_append, List.nil_append] using hcons (ih h hrest)
  | case4 | case5 | case6 => cases h

/-! ### Texts -/

theorem encodeUnit_of_le {n : Nat} (h : 0x800 ≤ n) : encodeUnit n = threeBytes n := by
  unfold encodeUnit
  rw [if_neg (by omega), if_neg (by omega)]

/-- A character is written unit by unit. -/
theorem encodeChar_eq (c : Char) : encodeChar c = (units c).flatMap encodeUnit := by
  unfold encodeChar units
  dsimp only
  by_cases hle : c.toNat ≤ 0xffff
  · rw [if_pos hle, if_pos hle, List.flatMap_singleton]
    rfl
  · have hlead : 0x800 ≤ leadUnit c.toNat := Nat.le_add_right_of_le (by decide)
    have htrail : 0x800 ≤ trailUnit c.toNat := Nat.le_add_right_of_le (by decide)
    rw [if_neg (by omega), if_neg (by omega), if_neg hle, if_neg hle, List.flatMap_cons,
      List.flatMap_singleton, encodeUnit_of_le hlead, encodeUnit_of_le htrail]

/-- The text of accepted bytes is written by writing the units that they spell. -/
theorem exists_spells_of_decode? {bytes : List UInt8} {s : String} (h : decode? bytes = some s) :
    ∃ us, Spells us bytes ∧ encode s = us.flatMap encodeUnit := by
  unfold decode? at h
  split at h
  · cases h
  · rename_i us hus
    split at h
    · cases h
    · rename_i cs hcs
      obtain ⟨_, rfl, hspells⟩ := exists_spells hus
      obtain ⟨_, rfl, hunits⟩ := exists_flatMap_units hcs hspells.le
      cases h
      refine ⟨_, hspells, ?_⟩
      rw [encode, String.toList_ofList, ← hunits, List.flatMap_assoc]
      exact List.flatMap_congr fun c _ => encodeChar_eq c

theorem length_encode_le {bytes : List UInt8} {s : String} (h : decode? bytes = some s) :
    (encode s).length ≤ bytes.length := by
  obtain ⟨us, hspells, hencode⟩ := exists_spells_of_decode? h
  rw [hencode]
  exact hspells.length_flatMap_le

theorem length_encode_eq_iff {bytes : List UInt8} {s : String} (h : decode? bytes = some s) :
    (encode s).length = bytes.length ↔ encode s = bytes := by
  obtain ⟨us, hspells, hencode⟩ := exists_spells_of_decode? h
  rw [hencode]
  exact ⟨fun hlength => (hspells.eq_flatMap hlength).symm, congrArg List.length⟩

end ModifiedUtf8

/-! ### Constants of a class file -/

namespace ConstantPool

/-- All constants fit a class file. -/
def AllStorable (p : ConstantPool) : Prop := ∀ c, some c ∈ p.slots → c.Storable

theorem AllStorable.append {p : ConstantPool} {c : Constant} (h : p.AllStorable)
    (hc : c.Storable) : (p.append c).AllStorable := by
  intro c' hc'
  have hmem : some c' ∈ p.slots ∨ c' = c := by
    unfold ConstantPool.append pushSlots at hc'
    split at hc' <;> simpa [or_comm] using hc'
  rcases hmem with hold | rfl
  · exact h c' hold
  · exact hc

theorem AllStorable.get? {p : ConstantPool} {i : UInt16} {c : Constant} (h : p.AllStorable)
    (hi : p.get? i = some c) : c.Storable := by
  refine h c (Array.mem_of_getElem? (i := i.toNat) ?_)
  exact Option.join_eq_some_iff.1 hi

end ConstantPool

namespace ClassImage

open Reader ConstantPool

theorem ensures_readConstant (index : Nat) : Ensures Constant.Storable (readConstant index) := by
  refine Ensures.after fun tag => ?_
  split
  · -- The length of a text is a word, and writing it again takes no more bytes.
    refine Ensures.after fun length => (ensures_bytes length.toNat).bind fun raw hraw => ?_
    split
    · rename_i text htext
      refine Ensures.pure ?_
      show ModifiedUtf8.encodedLength text ≤ wordMax
      have hle := ModifiedUtf8.length_encode_le htext
      have hlength := length.toNat_lt
      rw [ModifiedUtf8.length_encode] at hle
      unfold wordMax
      omega
    · nofun
  iterate 6 (· exact Ensures.after fun _ => Ensures.pure trivial)
  iterate 4 (· exact Ensures.after fun _ => Ensures.after fun _ => Ensures.pure trivial)
  · nofun

theorem ensures_readConstants (count fuel : Nat) :
    ∀ (index : Nat) (pool : ConstantPool), pool.AllStorable →
      Ensures (fun r => r.2.AllStorable) (readConstants count fuel index pool) := by
  induction fuel with
  | zero =>
    intro index pool hpool
    exact Ensures.pure hpool
  | succ fuel ih =>
    intro index pool hpool input r rest h
    rw [readConstants] at h
    split at h
    · split at h
      · cases h
      · rename_i c input' hc
        exact ih _ _ (hpool.append (ensures_readConstant index input c input' hc)) _ _ _ h
    · cases h
      exact hpool

theorem ensures_readPool : Ensures AllStorable readPool := by
  have hempty : empty.AllStorable := by
    intro c hc
    simp [ConstantPool.empty] at hc
  refine Ensures.after fun count => ?_
  refine (ensures_readConstants count.toNat count.toNat 1 empty hempty).bind fun r hr => ?_
  exact Ensures.ite (Ensures.after fun _ => Ensures.pure hr) (Ensures.pure hr)

/-- **All constants of a class that was read can be written again.** -/
theorem allStorable_of_ofBytes {file : List UInt8} {image : ClassImage}
    (h : ofBytes file = .ok image) : image.pool.AllStorable := by
  have hread : Ensures (fun image : ClassImage => image.pool.AllStorable) read := by
    refine Ensures.after fun _ => Ensures.ite (Ensures.after fun _ => ?_) ?_
    all_goals
      refine Ensures.after fun _ => Ensures.after fun _ => ?_
      refine ensures_readPool.bind fun pool hpool => ?_
      refine Ensures.after fun _ => Ensures.after fun _ => Ensures.after fun _ => ?_
      refine Ensures.after fun _ => Ensures.after fun _ => Ensures.after fun _ => ?_
      exact Ensures.after fun _ => Ensures.after fun _ => Ensures.pure hpool
  exact hread file image [] (ofBytes_eq_ok.1 h)

end ClassImage

/-! ### Summary -/

namespace ModifiedUtf8

open ClassImage Reader

/-- **The encoding is the shortest that the decoder accepts.**  Other bytes of the text are longer.
A text that a class file holds can therefore be written again: no pool refuses it for its length,
and its constant is read back. -/
theorem encode_shortest :
    (∀ bytes s, decode? bytes = some s → decode? (encode s) = some s ∧
      (encode s).length ≤ bytes.length ∧
      ((encode s).length = bytes.length ↔ encode s = bytes)) ∧
    ∀ file image, ofBytes file = .ok image → ∀ i s, image.pool.get? i = some (.utf8 s) →
      (encode s).length ≤ wordMax ∧ (∀ p : ConstantPool, p.utf8 s = p.intern (.utf8 s)) ∧
        ∀ index, Reads (readConstant index) (Constant.utf8 s).encode (.utf8 s) := by
  refine ⟨fun bytes s h => ⟨decode?_encode s, length_encode_le h, length_encode_eq_iff h⟩,
    fun file image hfile i s hs => ?_⟩
  have hlength : encodedLength s ≤ wordMax := (allStorable_of_ofBytes hfile).get? hs
  exact ⟨length_encode s ▸ hlength, fun p => if_neg (Nat.not_lt.2 hlength), reads_utf8 hlength⟩

/-- The bytes of a class `a` that is its own superclass and has no members, with its name in two
bytes. -/
def overlongClass : List UInt8 :=
  [0xca, 0xfe, 0xba, 0xbe, 0, 0, 0, 49, 0, 3, 1, 0, 2, 0xc1, 0xa1, 7, 0, 1, 0, 33, 0, 2, 0, 2, 0,
    0, 0, 0, 0, 0, 0, 0]

theorem encode_shortest_overlong :
    decode? [0xc1, 0x81, 0xe0, 0x80, 0x80] = some "A\x00" ∧
      (encode "A\x00").length < [0xc1, 0x81, 0xe0, 0x80, 0x80].length ∧
      ∃ image, ofBytes overlongClass = .ok image ∧ image.pool.get? 1 = some (.utf8 "a") ∧
        (encode "a").length ≤ wordMax := by
  have hdecode : decode? [0xc1, 0x81, 0xe0, 0x80, 0x80] = some "A\x00" := by decide +kernel
  obtain ⟨-, hle, heq⟩ := encode_shortest.1 _ _ hdecode
  have hne : encode "A\x00" ≠ [0xc1, 0x81, 0xe0, 0x80, 0x80] := by decide +kernel
  refine ⟨hdecode, Nat.lt_of_le_of_ne hle fun h => hne (heq.1 h), ?_⟩
  have hread : (ofBytes overlongClass).toOption.any
      (fun image => decide (image.pool.get? 1 = some (.utf8 "a"))) = true := by decide +kernel
  obtain ⟨image, himage, hname⟩ := Except.exists_ok_of_any hread
  have hname := of_decide_eq_true hname
  exact ⟨image, himage, hname, (encode_shortest.2 _ _ himage _ _ hname).1⟩

end ModifiedUtf8

end ClassForge
