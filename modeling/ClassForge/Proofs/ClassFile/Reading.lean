import Mathlib
import ClassForge.ClassFile.Draft
import ClassForge.ClassFile.Reader

/-!
# Reading what was written

A reader reads some bytes as a value when it takes exactly these bytes off the front, whatever
follows them. Stated for an arbitrary rest, this composes along the structure of a format:

* `Reader.Reads r bytes a` — the reader `r` takes `bytes` for `a`;
* `Reads.bind` — readers in sequence read bytes in sequence;
* `reads_u16` and its siblings — a word is read back from its bytes;
* `reads_counted` — a list with its 16-bit count in front is read back item by item.
-/

namespace ClassForge

/-! ### Words -/

/-- Big-endian bytes spell the number they were made from, as far as they reach. -/
theorem foldl_beBytes (k v : Nat) :
    ∀ acc : Nat, (beBytes k v).foldl (fun v b => 256 * v + b.toNat) acc
      = acc * 256 ^ k + v % 256 ^ k := by
  induction k with
  | zero =>
    intro acc
    simp [beBytes, Nat.mod_one]
  | succ k ih =>
    intro acc
    have hbyte : (UInt8.ofNat (v / 256 ^ k)).toNat = v / 256 ^ k % 256 := UInt8.toNat_ofNat'
    rw [beBytes, Nat.pow_eq, List.foldl_cons, ih, hbyte, Nat.mod_pow_succ]
    ring

theorem beValue_beBytes (k v : Nat) : beValue (beBytes k v) = v % 256 ^ k := by
  rw [beValue, foldl_beBytes]
  omega

namespace Reader

variable {α β : Type}

/-- The reader takes exactly these bytes off the front and reads them as `a`. -/
def Reads (r : Reader α) (bytes : List UInt8) (a : α) : Prop :=
  ∀ rest, r (bytes ++ rest) = .ok (a, rest)

theorem Reads.pure (a : α) : Reads (Pure.pure a) [] a := by
  intro rest
  rfl

/-- **Readers in sequence read bytes in sequence.** -/
theorem Reads.bind {r : Reader α} {f : α → Reader β} {bs cs : List UInt8} {a : α} {b : β}
    (hr : Reads r bs a) (hf : Reads (f a) cs b) : Reads (r >>= f) (bs ++ cs) b := by
  intro rest
  show (r (bs ++ cs ++ rest) >>= fun p => f p.1 p.2) = .ok (b, rest)
  rw [List.append_assoc, hr (cs ++ rest)]
  exact hf rest

/-- The last reader of a sequence, after which nothing is read. -/
theorem Reads.bind_last {r : Reader α} {f : α → Reader β} {bs : List UInt8} {a : α} {b : β}
    (hr : Reads r bs a) (hf : Reads (f a) [] b) : Reads (r >>= f) bs b := by
  have h := hr.bind hf
  rw [List.append_nil] at h
  exact h

/-- The last reader of a sequence, whose value is only rearranged. -/
theorem Reads.map {r : Reader α} {bs : List UInt8} {a : α} (g : α → β) (hr : Reads r bs a) :
    Reads (r >>= fun x => Pure.pure (g x)) bs (g a) :=
  hr.bind_last (Reads.pure (g a))

theorem Reads.ofExcept {x : Except ReadError α} {a : α} (h : x = .ok a) :
    Reads (Reader.ofExcept x) [] a := by
  intro rest
  rw [h]
  rfl

theorem reads_bytes {n : Nat} {bs : List UInt8} (h : bs.length = n) : Reads (bytes n) bs bs := by
  intro rest
  have htake : (bs ++ rest).take n = bs := by rw [← h, List.take_left]
  have hdrop : (bs ++ rest).drop n = rest := by rw [← h, List.drop_left]
  unfold bytes
  rw [htake, hdrop, if_pos h]

theorem reads_number (k v : Nat) : Reads (number k) (beBytes k v) (v % 256 ^ k) := by
  rw [← beValue_beBytes]
  exact (reads_bytes (length_beBytes k v)).map beValue

theorem reads_u8 (b : UInt8) : Reads u8 [b] b := by
  have h := (reads_number 1 b.toNat).map UInt8.ofNat
  have hvalue : UInt8.ofNat (b.toNat % 256 ^ 1) = b := by
    rw [Nat.mod_eq_of_lt (by simpa using b.toNat_lt), UInt8.ofNat_toNat]
  have hbytes : beBytes 1 b.toNat = [b] := by
    simp [beBytes]
  rw [hvalue, hbytes] at h
  exact h

theorem reads_u16 (w : UInt16) : Reads u16 (word16 w) w := by
  have h := (reads_number 2 w.toNat).map UInt16.ofNat
  rw [Nat.mod_eq_of_lt (by simpa using w.toNat_lt), UInt16.ofNat_toNat] at h
  exact h

theorem reads_u32 (w : UInt32) : Reads u32 (word32 w) w := by
  have h := (reads_number 4 w.toNat).map UInt32.ofNat
  rw [Nat.mod_eq_of_lt (by simpa using w.toNat_lt), UInt32.ofNat_toNat] at h
  exact h

theorem reads_u64 (w : UInt64) : Reads u64 (word64 w) w := by
  have h := (reads_number 8 w.toNat).map UInt64.ofNat
  rw [Nat.mod_eq_of_lt (by simpa using w.toNat_lt), UInt64.ofNat_toNat] at h
  exact h

/-! ### Lists -/

/-- Items are read one by one onto those already read, the last one first. -/
theorem reads_iterate {item : Reader β} {encode : α → List UInt8} {xs : List α} {ys : List β}
    (h : List.Forall₂ (fun x y => Reads item (encode x) y) xs ys) :
    ∀ done : List β,
      Reads (iterate (fun items => do
        let x ← item
        return x :: items) xs.length done) (xs.flatMap encode) (ys.reverse ++ done) := by
  induction h with
  | nil =>
    intro done rest
    rfl
  | @cons x y xs ys hitem _ ih =>
    intro done rest
    have hhead : Reads (do
        let z ← item
        return z :: done) (encode x) (y :: done) :=
      hitem.map (· :: done)
    have htail := ih (y :: done) rest
    rw [List.flatMap_cons, List.append_assoc, List.length_cons, iterate, hhead]
    simp only [List.reverse_cons, List.append_assoc, List.singleton_append]
    exact htail

theorem reads_many {item : Reader β} {encode : α → List UInt8} {xs : List α} {ys : List β}
    (h : List.Forall₂ (fun x y => Reads item (encode x) y) xs ys) :
    Reads (many item xs.length) (xs.flatMap encode) ys := by
  have hmap := (reads_iterate h []).map List.reverse
  rw [List.append_nil, List.reverse_reverse] at hmap
  exact hmap

theorem reads_count16 {n : Nat} (h : n ≤ wordMax) :
    Reads u16 (count16 n) (UInt16.ofNat n) ∧ (UInt16.ofNat n).toNat = n := by
  refine ⟨reads_u16 _, ?_⟩
  rw [UInt16.toNat_ofNat']
  exact Nat.mod_eq_of_lt (Nat.lt_succ_of_le h)

/-- **A counted list is read back item by item**, if the count fits a word. -/
theorem reads_counted {item : Reader β} (encode : α → List UInt8) {xs : List α} {ys : List β}
    (hlen : xs.length ≤ wordMax) (h : List.Forall₂ (fun x y => Reads item (encode x) y) xs ys) :
    Reads (counted item) (ClassDraft.encodeCounted encode xs) ys := by
  obtain ⟨hcount, hvalue⟩ := reads_count16 hlen
  have hmany := reads_many h
  rw [← hvalue] at hmany
  exact hcount.bind hmany

end Reader

end ClassForge
