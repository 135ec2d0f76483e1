import ClassForge.Proofs.ClassFile.RoundTrip

/-!
# Readers see no further than they read

What a reader does depends only on the bytes that it takes. This is closed under sequencing, so it
holds of the reader of a whole class.

* `ReadError.IsFault` — the errors that stay, whatever bytes follow;
* `Reader.Local` — a success depends on the bytes taken only, all of which are needed; a fault
  stays when bytes are added;
* `Local.bind`, `Local.iterate` — locality of compound readers;
* `ClassImage.local_read` — **PROVED**: the reader of a class is local;
* `ClassImage.ofBytes_append` — **PROVED**: a class file has no strict beginning and no extension
  that can be read, and each answer follows from the answer for the shorter bytes.
-/

namespace ClassForge

/-- The errors that more bytes do not mend: those about the bytes already there. -/
def ReadError.IsFault : ReadError → Prop
  | .truncated | .trailing _ => False
  | _ => True

namespace Reader

variable {α β σ : Type}

/-- **The reader sees no further than it reads.** -/
structure Local (r : Reader α) : Prop where
  /-- The bytes taken decide the value, and any shorter beginning of them ends too early. -/
  ok : ∀ {input a rest}, r input = .ok (a, rest) → ∃ used, input = used ++ rest ∧
    Reads r used a ∧ ∀ n < used.length, r (used.take n) = .error .truncated
  /-- Bytes can be missing, or there is a fault, which more bytes do not mend. -/
  error : ∀ {input e}, r input = .error e →
    e = .truncated ∨ e.IsFault ∧ ∀ more, r (input ++ more) = .error e

/-! ### Combinators -/

theorem Local.pure (a : α) : Local (Pure.pure a : Reader α) where
  ok h := by
    cases h
    exact ⟨[], rfl, Reads.pure a, fun n hn => absurd hn (Nat.not_lt_zero n)⟩
  error h := by cases h

theorem local_throw {e : ReadError} (he : e.IsFault) :
    Local (throw e : Reader α) where
  ok h := by cases h
  error h := by
    cases h
    exact .inr ⟨he, fun _ => rfl⟩

theorem Local.ofExcept {x : Except ReadError α} (hx : ∀ e, x = .error e → e.IsFault) :
    Local (ofExcept x) := by
  cases x with
  | ok a => exact Local.pure a
  | error e => exact local_throw (hx e rfl)

theorem run_bind (r : Reader α) (f : α → Reader β) (input : List UInt8) :
    (r >>= f) input = r input >>= fun p => f p.1 p.2 := rfl

/-- **Local readers in sequence are local.** -/
theorem Local.bind {r : Reader α} {f : α → Reader β} (hr : Local r) (hf : ∀ a, Local (f a)) :
    Local (r >>= f) where
  ok {input b rest} h := by
    rw [run_bind] at h
    obtain ⟨⟨a, mid⟩, hfirst, hsecond⟩ := Except.bind_eq_ok.1 h
    obtain ⟨used, rfl, hreads, hshort⟩ := hr.ok hfirst
    obtain ⟨used', rfl, hreads', hshort'⟩ := (hf a).ok hsecond
    refine ⟨used ++ used', (List.append_assoc ..).symm, hreads.bind hreads', fun n hn => ?_⟩
    rw [run_bind]
    by_cases hlt : n < used.length
    · -- The bytes end inside those of the first reader.
      rw [List.take_append_of_le_length (Nat.le_of_lt hlt), hshort n hlt]
      rfl
    · rw [List.length_append] at hn
      rw [List.take_append, List.take_of_length_le (Nat.le_of_not_lt hlt), hreads]
      exact hshort' (n - used.length) (by omega)
  error {input e} h := by
    rw [run_bind] at h
    cases hfirst : r input with
    | error e' =>
      rw [hfirst] at h
      cases h
      rcases hr.error hfirst with htrunc | ⟨hfault, hmore⟩
      · exact .inl htrunc
      · refine .inr ⟨hfault, fun more => ?_⟩
        rw [run_bind, hmore]
        rfl
    | ok p =>
      obtain ⟨a, mid⟩ := p
      rw [hfirst] at h
      obtain ⟨used, rfl, hreads, -⟩ := hr.ok hfirst
      rcases (hf a).error h with htrunc | ⟨hfault, hmore⟩
      · exact .inl htrunc
      · refine .inr ⟨hfault, fun more => ?_⟩
        rw [run_bind, List.append_assoc, hreads]
        exact hmore more

theorem Local.ite {c : Prop} [Decidable c] {r s : Reader α} (hr : Local r) (hs : Local s) :
    Local (if c then r else s) := by
  split
  · exact hr
  · exact hs

/-- A check in front of a reader: where it fails, reading stops with a fault. -/
theorem Local.guarded {c : Prop} [Decidable c] {e : ReadError} {r : Reader α} (he : e.IsFault)
    (hr : Local r) : Local (if c then (do throw e; r) else r) :=
  Local.ite ((local_throw he).bind fun _ => hr) hr

theorem Local.iterate {step : σ → Reader σ} (h : ∀ s, Local (step s)) (n : Nat) :
    ∀ s, Local (iterate step n s) := by
  induction n with
  | zero => exact fun s => Local.pure s
  | succ n ih =>
    intro s
    rw [iterate_succ]
    exact (h s).bind ih

theorem Local.many {item : Reader α} (h : Local item) (n : Nat) : Local (many item n) :=
  (Local.iterate (fun items => h.bind fun x => Local.pure (x :: items)) n []).bind
    fun items => Local.pure items.reverse

/-! ### Bytes and words -/

theorem local_bytes (n : Nat) : Local (bytes n) where
  ok {input a rest} h := by
    unfold bytes at h
    dsimp only at h
    split at h
    · rename_i hlen
      cases h
      refine ⟨input.take n, (List.take_append_drop n input).symm, reads_bytes hlen, ?_⟩
      intro m hm
      have hshort : ((input.take n).take m).length ≠ n := by
        rw [List.length_take]
        omega
      rw [bytes, List.take_of_length_le (by rw [List.length_take]; omega), if_neg hshort]
    · cases h
  error {input e} h := by
    unfold bytes at h
    dsimp only at h
    split at h
    · cases h
    · cases h
      exact .inl rfl

theorem local_number (k : Nat) : Local (number k) := (local_bytes k).bind fun _ => Local.pure _

theorem local_u8 : Local u8 := (local_number 1).bind fun _ => Local.pure _

theorem local_u16 : Local u16 := (local_number 2).bind fun _ => Local.pure _

theorem local_u32 : Local u32 := (local_number 4).bind fun _ => Local.pure _

theorem local_u64 : Local u64 := (local_number 8).bind fun _ => Local.pure _

theorem Local.counted {item : Reader α} (h : Local item) : Local (counted item) :=
  local_u16.bind fun n => h.many n.toNat

end Reader

/-! ### Following constants -/

namespace ConstantPool

theorem isFault_of_utf8At {p : ConstantPool} {i : UInt16} {e : ReadError}
    (h : p.utf8At i = .error e) : e.IsFault := by
  unfold utf8At at h
  split at h <;> cases h <;> trivial

theorem isFault_of_classAt {p : ConstantPool} {i : UInt16} {e : ReadError}
    (h : p.classAt i = .error e) : e.IsFault := by
  unfold classAt at h
  split at h
  · exact isFault_of_utf8At h
  · cases h
    trivial
  · cases h
    trivial

end ConstantPool

namespace ClassImage

open Reader

/-! ### The parts of a class -/

theorem local_decode {α : Type} (raw : List UInt8) (index : Nat) (make : String → α) :
    Local (match ModifiedUtf8.decode? raw with
      | some text => (return make text : Reader α)
      | none => throw (.badText index)) := by
  split
  · exact Local.pure _
  · exact local_throw trivial

/-- Two words that make up a constant. -/
theorem local_pair {α : Type} (make : UInt16 → UInt16 → α) :
    Local (do return make (← u16) (← u16) : Reader α) :=
  local_u16.bind fun _ => local_u16.bind fun _ => Local.pure _

theorem local_readConstant (index : Nat) : Local (readConstant index) := by
  refine local_u8.bind fun tag => ?_
  split
  · exact local_u16.bind fun length => (local_bytes _).bind fun raw => local_decode raw index _
  · exact local_u32.bind fun _ => Local.pure _
  · exact local_u32.bind fun _ => Local.pure _
  · exact local_u64.bind fun _ => Local.pure _
  · exact local_u64.bind fun _ => Local.pure _
  · exact local_u16.bind fun _ => Local.pure _
  · exact local_u16.bind fun _ => Local.pure _
  · exact local_pair _
  · exact local_pair _
  · exact local_pair _
  · exact local_pair _
  · exact local_throw trivial

theorem readConstants_succ (count fuel index : Nat) (pool : ConstantPool) :
    readConstants count (fuel + 1) index pool =
      if index < count then
        readConstant index >>= fun c =>
          readConstants count fuel (min (index + c.width) wordMax) (pool.append c)
      else pure (index, pool) := by
  funext input
  rw [readConstants]
  split
  · rw [run_bind]
    cases readConstant index input <;> rfl
  · rfl

theorem local_readConstants (count fuel : Nat) :
    ∀ index pool, Local (readConstants count fuel index pool) := by
  induction fuel with
  | zero => exact fun index pool => Local.pure (index, pool)
  | succ fuel ih =>
    intro index pool
    rw [readConstants_succ]
    exact Local.ite ((local_readConstant index).bind fun c => ih _ _) (Local.pure _)

theorem local_readPool : Local readPool :=
  local_u16.bind fun count => (local_readConstants _ _ _ _).bind fun (_, pool) =>
    Local.guarded (e := .badIndex count) trivial (Local.pure pool)

theorem local_readText (pool : ConstantPool) : Local (readText pool) :=
  local_u16.bind fun _ => Local.ofExcept fun _ => ConstantPool.isFault_of_utf8At

theorem local_readClassName (pool : ConstantPool) : Local (readClassName pool) :=
  local_u16.bind fun _ => Local.ofExcept fun _ => ConstantPool.isFault_of_classAt

theorem local_skipAttribute : Local skipAttribute :=
  local_u16.bind fun _ => local_u32.bind fun _ => (local_bytes _).bind fun _ => Local.pure _

theorem local_readField (pool : ConstantPool) : Local (readField pool) :=
  local_u16.bind fun _ => (local_readText pool).bind fun _ => (local_readText pool).bind fun _ =>
    local_u16.bind fun _ => (Local.iterate (fun _ => local_skipAttribute) _ _).bind fun _ =>
      Local.pure _

theorem local_readHandler : Local readHandler :=
  local_u16.bind fun _ => local_u16.bind fun _ => local_u16.bind fun _ => local_u16.bind fun _ =>
    Local.pure _

theorem local_readLine : Local readLine :=
  local_u16.bind fun _ => local_u16.bind fun _ => Local.pure _

theorem local_readBodyAttribute (pool : ConstantPool) (lines : List LineEntry) :
    Local (readBodyAttribute pool lines) := by
  refine (local_readText pool).bind fun name => local_u32.bind fun length => Local.ite ?_ ?_
  · exact local_readLine.counted.bind fun _ => Local.pure _
  · exact (local_bytes _).bind fun _ => Local.pure _

theorem local_readBody (pool : ConstantPool) : Local (readBody pool) :=
  local_u16.bind fun _ => local_u16.bind fun _ => local_u32.bind fun _ =>
    (local_bytes _).bind fun _ => local_readHandler.counted.bind fun _ => local_u16.bind fun _ =>
      (Local.iterate (local_readBodyAttribute pool) _ _).bind fun _ => Local.pure _

theorem local_readMethodAttribute (pool : ConstantPool)
    (sofar : Option MethodBody × List String) : Local (readMethodAttribute pool sofar) := by
  refine (local_readText pool).bind fun name => local_u32.bind fun length =>
    Local.ite ?_ (Local.ite ?_ ?_)
  · exact (local_readBody pool).bind fun _ => Local.pure _
  · exact (local_readClassName pool).counted.bind fun _ => Local.pure _
  · exact (local_bytes _).bind fun _ => Local.pure _

theorem local_readMethod (pool : ConstantPool) : Local (readMethod pool) :=
  local_u16.bind fun _ => (local_readText pool).bind fun _ => (local_readText pool).bind fun _ =>
    local_u16.bind fun _ => (Local.iterate (local_readMethodAttribute pool) _ _).bind fun _ =>
      Local.pure _

theorem local_readClassAttribute (pool : ConstantPool)
    (sofar : Option String × Option String) : Local (readClassAttribute pool sofar) := by
  refine (local_readText pool).bind fun name => local_u32.bind fun length =>
    Local.ite ?_ (Local.ite ?_ ?_)
  · exact (local_readText pool).bind fun _ => Local.pure _
  · exact (local_bytes _).bind fun raw => local_decode raw 0 _
  · exact (local_bytes _).bind fun _ => Local.pure _

/-- **The reader of a class is local.** -/
theorem local_read : Local read :=
  local_u32.bind fun magic => Local.guarded (e := .badMagic magic) trivial <|
    local_u16.bind fun _ => local_u16.bind fun _ => local_readPool.bind fun pool =>
      local_u16.bind fun _ => (local_readClassName pool).bind fun _ =>
        (local_readClassName pool).bind fun _ => (local_readClassName pool).counted.bind fun _ =>
          (local_readField pool).counted.bind fun _ =>
            (local_readMethod pool).counted.bind fun _ => local_u16.bind fun _ =>
              (Local.iterate (local_readClassAttribute pool) _ _).bind fun _ => Local.pure _

/-! ### Whole class files -/

theorem ofBytes_eq_ok {b : List UInt8} {c : ClassImage} :
    ofBytes b = .ok c ↔ read b = .ok (c, []) := by
  unfold ofBytes
  split <;> simp_all

theorem ofBytes_of_read {b : List UInt8} {c : ClassImage} {rest : List UInt8}
    (h : read b = .ok (c, rest)) (hrest : rest ≠ []) :
    ofBytes b = .error (.trailing rest.length) := by
  unfold ofBytes
  rw [h]
  cases rest with
  | nil => exact absurd rfl hrest
  | cons x rest => rfl

theorem ofBytes_of_error {b : List UInt8} {e : ReadError} (h : read b = .error e) :
    ofBytes b = .error e := by
  unfold ofBytes
  rw [h]

/-- An error comes from the reader, or bytes are left over. -/
theorem ofBytes_eq_error {b : List UInt8} {e : ReadError} (h : ofBytes b = .error e) :
    read b = .error e ∨
      ∃ c rest, read b = .ok (c, rest) ∧ rest ≠ [] ∧ e = .trailing rest.length := by
  cases hread : read b with
  | error e' =>
    rw [ofBytes_of_error hread] at h
    cases h
    exact .inl rfl
  | ok p =>
    obtain ⟨c, rest⟩ := p
    by_cases hrest : rest = []
    · rw [hrest] at hread
      cases (ofBytes_eq_ok.2 hread).symm.trans h
    · rw [ofBytes_of_read hread hrest] at h
      cases h
      exact .inr ⟨c, rest, rfl, hrest, rfl⟩

/-- A class that has been read is read again from longer bytes, with the rest left over. -/
theorem read_append {b : List UInt8} {c : ClassImage} {rest : List UInt8}
    (h : read b = .ok (c, rest)) (x : List UInt8) : read (b ++ x) = .ok (c, rest ++ x) := by
  obtain ⟨used, rfl, hreads, -⟩ := local_read.ok h
  rw [List.append_assoc]
  exact hreads (rest ++ x)

theorem ofBytes_of_strictPrefix {b b' : List UInt8} {c : ClassImage} (h : ofBytes b = .ok c)
    (hle : b' <+: b) (hne : b' ≠ b) : ofBytes b' = .error .truncated := by
  obtain ⟨used, hused, -, hshort⟩ := local_read.ok (ofBytes_eq_ok.1 h)
  rw [List.append_nil] at hused
  subst hused
  have hlt : b'.length < b.length :=
    Nat.lt_of_le_of_ne hle.length_le fun heq => hne (hle.eq_of_length heq)
  have hread := hshort b'.length hlt
  rw [← List.prefix_iff_eq_take.1 hle] at hread
  exact ofBytes_of_error hread

/-- **Reading a class file follows the bytes from the front.**  No strict beginning of a class file
and no extension of it can be read: the one is truncated, the other has bytes left over. Further
bytes after those left over are counted with them. Every other error stays when bytes are added. -/
theorem ofBytes_append (b x : List UInt8) (hx : x ≠ []) :
    (∀ c, ofBytes b = .ok c → ofBytes (b ++ x) = .error (.trailing x.length) ∧
      ∀ b', b' <+: b → b' ≠ b → ofBytes b' = .error .truncated) ∧
    (∀ k, ofBytes b = .error (.trailing k) →
      ofBytes (b ++ x) = .error (.trailing (k + x.length))) ∧
    ∀ e, ofBytes b = .error e → e ≠ .truncated → (∀ k, e ≠ .trailing k) →
      ofBytes (b ++ x) = .error e := by
  refine ⟨fun c h => ⟨?_, fun b' => ofBytes_of_strictPrefix h⟩, fun k h => ?_,
    fun e h htrunc htrail => ?_⟩
  · exact ofBytes_of_read (read_append (ofBytes_eq_ok.1 h) x) hx
  · rcases ofBytes_eq_error h with hread | ⟨c, rest, hread, hrest, hk⟩
    · rcases local_read.error hread with htrunc | ⟨hfault, -⟩
      · cases htrunc
      · exact hfault.elim
    · cases hk
      rw [ofBytes_of_read (read_append hread x) (by simp [hrest]), List.length_append]
  · rcases ofBytes_eq_error h with hread | ⟨c, rest, -, -, hk⟩
    · rcases local_read.error hread with heq | ⟨-, hmore⟩
      · exact absurd heq htrunc
      · exact ofBytes_of_error (hmore x)
    · exact absurd hk (htrail _)

/-- The bytes of a class `a` that is its own superclass and has no members. -/
def smallestClass : List UInt8 :=
  [0xca, 0xfe, 0xba, 0xbe, 0, 0, 0, 49, 0, 3, 1, 0, 1, 97, 7, 0, 1, 0, 33, 0, 2, 0, 2, 0, 0, 0, 0,
    0, 0, 0, 0]

theorem ofBytes_append_smallestClass :
    ofBytes (smallestClass ++ [1, 2]) = .error (.trailing 2) ∧
      ofBytes (smallestClass.take 30) = .error .truncated ∧
      ofBytes (smallestClass ++ [1, 2] ++ [3]) = .error (.trailing 3) ∧
      ofBytes ([0xca, 0xfe, 0xba, 0xbf] ++ [0]) = .error (.badMagic 0xcafebabf) := by
  have hok : ∃ c, ofBytes smallestClass = .ok c := by
    have hbool : (ofBytes smallestClass).toBool = true := by decide +kernel
    cases h : ofBytes smallestClass with
    | ok c => exact ⟨c, rfl⟩
    | error e =>
      rw [h] at hbool
      cases hbool
  obtain ⟨c, hc⟩ := hok
  obtain ⟨htrail, hshort⟩ := (ofBytes_append smallestClass [1, 2] (by decide)).1 c hc
  refine ⟨htrail, hshort _ (List.take_prefix _ _) (by decide), ?_, ?_⟩
  · exact (ofBytes_append (smallestClass ++ [1, 2]) [3] (by decide)).2.1 2 htrail
  · exact (ofBytes_append [0xca, 0xfe, 0xba, 0xbf] [0] (by decide)).2.2 _
      (ofBytes_of_error rfl) (by decide) (fun k h => by cases h)

end ClassImage

end ClassForge
