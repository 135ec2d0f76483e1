import ClassForge.Proofs.ClassFile.Locality

/-!
# The bytes that a reader takes

A successful read says which bytes were taken. Each lemma is an equivalence: the bytes start with
the encoding of the value, or with that of something which shows the value.

* `beBytes_beValue` — big-endian bytes are those of the number they spell;
* `bytes_eq_ok`, `u16_eq_ok` and their siblings — what the basic readers take;
* `Recognizes` — the reader takes exactly the encodings of things that show its value;
* `recognizes_iterate`, `Recognizes.counted` — **PROVED**: so do readers of several items.
-/

namespace ClassForge

/-! ### Words -/

theorem foldl_beValue (bs : List UInt8) :
    ∀ acc : Nat, bs.foldl (fun v b => 256 * v + b.toNat) acc
      = acc * 256 ^ bs.length + beValue bs := by
  induction bs with
  | nil =>
    intro acc
    simp [beValue]
  | cons b bs ih =>
    intro acc
    rw [beValue, List.foldl_cons, List.foldl_cons, ih, ih, List.length_cons, pow_succ]
    ring

theorem beValue_cons (b : UInt8) (bs : List UInt8) :
    beValue (b :: bs) = b.toNat * 256 ^ bs.length + beValue bs := by
  rw [beValue, List.foldl_cons, foldl_beValue]
  simp

theorem beValue_lt (bs : List UInt8) : beValue bs < 256 ^ bs.length := by
  induction bs with
  | nil => exact Nat.zero_lt_one
  | cons b bs ih =>
    have hb : b.toNat + 1 ≤ 256 := b.toNat_lt
    calc
      beValue (b :: bs) = b.toNat * 256 ^ bs.length + beValue bs := beValue_cons b bs
      _ < (b.toNat + 1) * 256 ^ bs.length := by rw [Nat.add_one_mul]; omega
      _ ≤ 256 * 256 ^ bs.length := Nat.mul_le_mul_right _ hb
      _ = 256 ^ (b :: bs).length := by rw [List.length_cons, pow_succ, Nat.mul_comm]

/-- Only the residue of a number shows in its bytes. -/
theorem beBytes_congr {v w : Nat} (k : Nat) (h : v % 256 ^ k = w % 256 ^ k) :
    beBytes k v = beBytes k w := by
  induction k with
  | zero => rfl
  | succ k ih =>
    have hhead : v / 256 ^ k % 256 = w / 256 ^ k % 256 := by
      rw [← Nat.mod_mul_right_div_self, ← Nat.mod_mul_right_div_self, ← pow_succ, h]
    have htail : v % 256 ^ k = w % 256 ^ k := by
      have hdvd : 256 ^ k ∣ 256 ^ (k + 1) := pow_dvd_pow 256 (Nat.le_succ k)
      rw [← Nat.mod_mod_of_dvd v hdvd, h, Nat.mod_mod_of_dvd w hdvd]
    have hbyte : UInt8.ofNat (v / 256 ^ k) = UInt8.ofNat (w / 256 ^ k) := by
      apply UInt8.toNat_inj.1
      rw [UInt8.toNat_ofNat', UInt8.toNat_ofNat']
      exact hhead
    rw [beBytes, beBytes, Nat.pow_eq, hbyte, ih htail]

/-- **Bytes are those of the number they spell.** -/
theorem beBytes_beValue (bs : List UInt8) : beBytes bs.length (beValue bs) = bs := by
  induction bs with
  | nil => rfl
  | cons b bs ih =>
    have hlt := beValue_lt bs
    have hhead : beValue (b :: bs) / 256 ^ bs.length = b.toNat := by
      rw [beValue_cons, Nat.mul_comm, Nat.mul_add_div (Nat.pos_of_ne_zero (by simp)),
        Nat.div_eq_of_lt hlt, Nat.add_zero]
    have htail : beValue (b :: bs) % 256 ^ bs.length = beValue bs % 256 ^ bs.length := by
      rw [beValue_cons, Nat.mul_add_mod']
    rw [List.length_cons, beBytes, Nat.pow_eq, hhead, UInt8.ofNat_toNat, beBytes_congr _ htail, ih]

namespace Reader

variable {α β σ ν lay : Type} {input rest : List UInt8}

/-! ### Basic readers -/

theorem bind_eq_ok {r : Reader α} {f : α → Reader β} {b : β} :
    (r >>= f) input = .ok (b, rest) ↔
      ∃ a mid, r input = .ok (a, mid) ∧ f a mid = .ok (b, rest) := by
  rw [run_bind, Except.bind_eq_ok, Prod.exists]

theorem pure_eq_ok {a b : α} :
    (pure a : Reader α) input = .ok (b, rest) ↔ a = b ∧ input = rest := by
  show Except.ok (a, input) = .ok (b, rest) ↔ _
  rw [Except.ok.injEq, Prod.mk.injEq]

theorem ofExcept_eq_ok {x : Except ReadError α} {a : α} :
    ofExcept x input = .ok (a, rest) ↔ x = .ok a ∧ input = rest := by
  cases x with
  | error e =>
    constructor
    · intro h
      cases h
    · rintro ⟨h, -⟩
      cases h
  | ok b =>
    show Except.ok (b, input) = .ok (a, rest) ↔ _
    rw [Except.ok.injEq, Prod.mk.injEq, Except.ok.injEq]

theorem bytes_eq_ok {n : Nat} {a : List UInt8} :
    bytes n input = .ok (a, rest) ↔ a.length = n ∧ input = a ++ rest := by
  constructor
  · intro h
    unfold bytes at h
    dsimp only at h
    split at h
    · rename_i hlen
      cases h
      exact ⟨hlen, (List.take_append_drop n input).symm⟩
    · cases h
  · rintro ⟨hlen, rfl⟩
    exact reads_bytes hlen rest

theorem number_eq_ok {k n : Nat} :
    number k input = .ok (n, rest) ↔ n < 256 ^ k ∧ input = beBytes k n ++ rest := by
  unfold number
  rw [bind_eq_ok]
  constructor
  · rintro ⟨a, mid, hbytes, hpure⟩
    obtain ⟨rfl, rfl⟩ := bytes_eq_ok.1 hbytes
    obtain ⟨rfl, rfl⟩ := pure_eq_ok.1 hpure
    exact ⟨beValue_lt a, by rw [beBytes_beValue]⟩
  · rintro ⟨hlt, rfl⟩
    refine ⟨_, _, bytes_eq_ok.2 ⟨length_beBytes k n, rfl⟩, pure_eq_ok.2 ⟨?_, rfl⟩⟩
    rw [beValue_beBytes, Nat.mod_eq_of_lt hlt]

theorem u16_eq_ok {w : UInt16} : u16 input = .ok (w, rest) ↔ input = word16 w ++ rest := by
  constructor
  · intro h
    obtain ⟨n, mid, hnumber, hpure⟩ := bind_eq_ok.1 h
    obtain ⟨hlt, rfl⟩ := number_eq_ok.1 hnumber
    obtain ⟨rfl, rfl⟩ := pure_eq_ok.1 hpure
    have hvalue : (UInt16.ofNat n).toNat = n := by
      rw [UInt16.toNat_ofNat']
      exact Nat.mod_eq_of_lt hlt
    rw [word16, hvalue]
  · rintro rfl
    exact reads_u16 w rest

theorem u32_eq_ok {w : UInt32} : u32 input = .ok (w, rest) ↔ input = word32 w ++ rest := by
  constructor
  · intro h
    obtain ⟨n, mid, hnumber, hpure⟩ := bind_eq_ok.1 h
    obtain ⟨hlt, rfl⟩ := number_eq_ok.1 hnumber
    obtain ⟨rfl, rfl⟩ := pure_eq_ok.1 hpure
    have hvalue : (UInt32.ofNat n).toNat = n := by
      rw [UInt32.toNat_ofNat']
      exact Nat.mod_eq_of_lt hlt
    rw [word32, hvalue]
  · rintro rfl
    exact reads_u32 w rest

/-- A check in front of a reader. -/
theorem guard_eq_ok {c : Prop} [Decidable c] {e : ReadError} {k : Unit → Reader α} {a : α} :
    (if c then throw e >>= k else k ()) input = .ok (a, rest) ↔
      ¬c ∧ k () input = .ok (a, rest) := by
  by_cases hc : c
  · rw [if_pos hc]
    constructor
    · intro h
      cases h
    · rintro ⟨hn, -⟩
      exact absurd hc hn
  · rw [if_neg hc]
    constructor
    · intro h
      exact ⟨hc, h⟩
    · rintro ⟨-, h⟩
      exact h

/-! ### Several items -/

/-- **The reader takes exactly the encodings** of things that show its value, whatever follows. -/
def Recognizes (r : Reader α) (encode : lay → List UInt8) (Shows : lay → α → Prop) : Prop :=
  ∀ input a rest, r input = .ok (a, rest) ↔ ∃ l, input = encode l ++ rest ∧ Shows l a

/-- Readers of one item each, where `add` puts what an item shows to what was read before. -/
theorem recognizes_iterate {step : σ → Reader σ} {encode : lay → List UInt8}
    {Shows : lay → ν → Prop} {add : σ → ν → σ}
    (h : ∀ s input t rest, step s input = .ok (t, rest) ↔
      ∃ l v, input = encode l ++ rest ∧ Shows l v ∧ t = add s v) (n : Nat) :
    ∀ s input t rest, iterate step n s input = .ok (t, rest) ↔
      ∃ ls vs, ls.length = n ∧ input = ls.flatMap encode ++ rest ∧ List.Forall₂ Shows ls vs ∧
        t = vs.foldl add s := by
  induction n with
  | zero =>
    intro s input t rest
    constructor
    · intro hrun
      obtain ⟨rfl, rfl⟩ := pure_eq_ok.1 hrun
      exact ⟨[], [], rfl, rfl, .nil, rfl⟩
    · rintro ⟨ls, vs, hlen, rfl, hshows, rfl⟩
      obtain rfl := List.length_eq_zero_iff.1 hlen
      obtain rfl := List.forall₂_nil_left_iff.1 hshows
      rfl
  | succ n ih =>
    intro s input t rest
    rw [iterate_succ, bind_eq_ok]
    constructor
    · rintro ⟨u, mid, hstep, hrun⟩
      obtain ⟨l, v, rfl, hl, rfl⟩ := (h _ _ _ _).1 hstep
      obtain ⟨ls, vs, rfl, rfl, hshows, rfl⟩ := (ih _ _ _ _).1 hrun
      refine ⟨l :: ls, v :: vs, rfl, ?_, .cons hl hshows, rfl⟩
      rw [List.flatMap_cons, List.append_assoc]
    · rintro ⟨ls, vs, hlen, rfl, hshows, rfl⟩
      cases hshows with
      | nil => cases hlen
      | @cons l v ls vs hl hshows =>
        refine ⟨add s v, ls.flatMap encode ++ rest, (h _ _ _ _).2 ⟨l, v, ?_, hl, rfl⟩,
          (ih _ _ _ _).2 ⟨ls, vs, Nat.succ.inj hlen, rfl, hshows, rfl⟩⟩
        rw [List.flatMap_cons, List.append_assoc]

/-- The same behind a count, which tells no more than the largest word. -/
theorem counted_iterate_eq_ok {step : σ → Reader σ} {encode : lay → List UInt8}
    {Shows : lay → ν → Prop} {add : σ → ν → σ} {s : σ} {k : σ → Reader β} {b : β}
    (h : ∀ s input t rest, step s input = .ok (t, rest) ↔
      ∃ l v, input = encode l ++ rest ∧ Shows l v ∧ t = add s v) :
    (do k (← iterate step (← u16).toNat s) : Reader β) input = .ok (b, rest) ↔
      ∃ ls vs mid, ls.length ≤ wordMax ∧ List.Forall₂ Shows ls vs ∧
        input = ClassDraft.encodeCounted encode ls ++ mid ∧
        k (vs.foldl add s) mid = .ok (b, rest) := by
  rw [bind_eq_ok]
  constructor
  · rintro ⟨n, mid, hn, hrun⟩
    obtain rfl := u16_eq_ok.1 hn
    obtain ⟨t, mid', hsteps, hk⟩ := bind_eq_ok.1 hrun
    obtain ⟨ls, vs, hlen, rfl, hshows, rfl⟩ := (recognizes_iterate h _ _ _ _ _).1 hsteps
    refine ⟨ls, vs, mid', ?_, hshows, ?_, hk⟩
    · rw [hlen]
      exact Nat.le_of_lt_succ n.toNat_lt
    · rw [ClassDraft.encodeCounted, count16, hlen, UInt16.ofNat_toNat, List.append_assoc]
  · rintro ⟨ls, vs, mid, hle, hshows, rfl, hk⟩
    obtain ⟨hcount, hvalue⟩ := reads_count16 hle
    have hsteps := (recognizes_iterate h ls.length s (ls.flatMap encode ++ mid) _ mid).2
      ⟨ls, vs, rfl, rfl, hshows, rfl⟩
    rw [← hvalue] at hsteps
    refine ⟨_, ls.flatMap encode ++ mid, ?_, bind_eq_ok.2 ⟨_, mid, hsteps, hk⟩⟩
    rw [ClassDraft.encodeCounted, List.append_assoc]
    exact hcount _

theorem foldl_flip_cons (xs : List α) :
    ∀ done : List α, xs.foldl (fun items x => x :: items) done = xs.reverse ++ done := by
  induction xs with
  | nil =>
    intro done
    rfl
  | cons x xs ih =>
    intro done
    rw [List.foldl_cons, ih, List.reverse_cons, List.append_assoc]
    rfl

/-- **Items with a count are recognized one by one.** -/
theorem Recognizes.counted {item : Reader α} {encode : lay → List UInt8} {Shows : lay → α → Prop}
    (h : Recognizes item encode Shows) :
    Recognizes (counted item) (ClassDraft.encodeCounted encode)
      (fun ls xs => ls.length ≤ wordMax ∧ List.Forall₂ Shows ls xs) := by
  have hstep : ∀ (s : List α) input t rest,
      (do let x ← item; return x :: s : Reader (List α)) input = .ok (t, rest) ↔
        ∃ l v, input = encode l ++ rest ∧ Shows l v ∧ t = v :: s := by
    intro s input t rest
    rw [bind_eq_ok]
    constructor
    · rintro ⟨x, mid, hitem, hpure⟩
      obtain ⟨l, rfl, hl⟩ := (h _ _ _).1 hitem
      obtain ⟨rfl, rfl⟩ := pure_eq_ok.1 hpure
      exact ⟨l, x, rfl, hl, rfl⟩
    · rintro ⟨l, v, rfl, hl, rfl⟩
      exact ⟨v, rest, (h _ _ _).2 ⟨l, rfl, hl⟩, rfl⟩
  intro input xs rest
  refine (counted_iterate_eq_ok hstep).trans ?_
  constructor
  · rintro ⟨ls, vs, mid, hle, hshows, rfl, hk⟩
    obtain ⟨rfl, rfl⟩ := pure_eq_ok.1 hk
    rw [foldl_flip_cons, List.append_nil, List.reverse_reverse]
    exact ⟨ls, rfl, hle, hshows⟩
  · rintro ⟨ls, rfl, hle, hshows⟩
    refine ⟨ls, xs, rest, hle, hshows, rfl, pure_eq_ok.2 ⟨?_, rfl⟩⟩
    rw [foldl_flip_cons, List.append_nil, List.reverse_reverse]

end Reader

end ClassForge
