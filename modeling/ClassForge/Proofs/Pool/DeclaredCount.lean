import ClassForge.Proofs.ClassFile.Consumption
import ClassForge.Proofs.Pool.Representation

/-!
# The declared size of a pool

A class file declares how many indices its constants take. The reader stops at the declared count
and asks that the last constant ends there, but its index stops at the largest word: a 64-bit
number at the last index but one of the largest pool reaches past the end unseen.

* `ConstantPool.extent` — the indices that the constants of a pool take up;
* `readConstants_eq_ok` — **PROVED**: what the loop over the constants leaves behind;
* `extent_of_ofBytes` — **PROVED**: the extent is the declared count unless a 64-bit number
  straddles the end, which only the largest count lets pass;
* `straddlingClass` — a class that is read although its pool is one index too long.
-/

namespace ClassForge

namespace ConstantPool

/-! ### Extent -/

/-- The number of indices up to the end of the last constant, the reserved one included. -/
def extent (p : ConstantPool) : Nat := 1 + (p.toList.map fun (_, c) => c.width).sum

/-- A 64-bit number at the last index below a count, so that its second index is the count. -/
def Straddles (p : ConstantPool) (count : Nat) : Prop :=
  ∃ c, p.slots[count - 1]? = some (some c) ∧ c.width = 2

theorem extent_eq_size {p : ConstantPool} {cs : List Constant}
    (h : p.slots = cs.foldl pushSlots #[none]) : p.extent = p.slots.size := by
  have hcs : p.toList.map Prod.snd = cs := by
    rw [map_snd_toList, h, filterMap_foldl_pushSlots]
    simp
  have hwidths : p.toList.map (fun (_, c) => c.width) = cs.map Constant.width := by
    rw [← hcs, List.map_map]
    rfl
  rw [extent, hwidths, h, size_foldl_pushSlots]
  rfl

/-- Behind a straddling number there is one more index. -/
theorem Straddles.lt_size {p : ConstantPool} {cs : List Constant} {count : Nat}
    (h : p.slots = cs.foldl pushSlots #[none]) (hcount : 0 < count) (hp : p.Straddles count) :
    count < p.slots.size := by
  obtain ⟨c, hc, hwide⟩ := hp
  have hgapped : Gapped p.slots := by
    rw [h]
    exact Gapped.foldl_pushSlots cs gapped_singleton
  have hgap := (hgapped count).2 (.inr ⟨count - 1, c, by omega, hc, hwide⟩)
  exact (Array.getElem?_eq_some_iff.1 hgap).1

theorem extends_foldl_append (cs : List Constant) :
    ∀ p : ConstantPool, Extends p (cs.foldl append p) := by
  induction cs with
  | nil => exact Extends.refl
  | cons c cs ih =>
    intro p i d hget
    exact ih (p.append c) i d (extends_pushSlots rfl i d hget)

end ConstantPool

namespace ClassImage

open Reader ConstantPool

/-! ### The loop over the constants -/

/-- What holds before each constant: the constants end below the count, at the count, or a 64-bit
number straddles it. -/
def Within (count : Nat) (p : ConstantPool) : Prop :=
  p.slots.size ≤ count ∨ p.slots.size = count + 1 ∧ p.Straddles count

theorem Within.append {count : Nat} {p : ConstantPool} (h : p.slots.size < count) (c : Constant) :
    Within count (p.append c) := by
  have hsize : (p.append c).slots.size = p.slots.size + c.width := size_pushSlots p.slots c
  by_cases hfits : p.slots.size + c.width ≤ count
  · exact .inl (hsize.trans_le hfits)
  · have hwidth : c.width = 2 := by
      cases c <;> simp_all [Constant.width]
    have hlast : count - 1 = p.slots.size := by omega
    refine .inr ⟨by omega, c, ?_, hwidth⟩
    rw [hlast]
    exact getElem?_pushSlots_size p.slots c

/-- **The loop over the constants** goes on up to the count. It appends constants, the last of
which ends at the count or straddles it, and its index is where they end or the largest word. -/
theorem readConstants_eq_ok {count : Nat} (hcount : count ≤ wordMax) (fuel : Nat) :
    ∀ {index : Nat} {p q : ConstantPool} {stop : Nat} {input rest : List UInt8},
      index = min p.slots.size wordMax → Within count p → count ≤ index + fuel →
      readConstants count fuel index p input = .ok ((stop, q), rest) →
      (∃ cs : List Constant, q = cs.foldl ConstantPool.append p) ∧ stop = min q.slots.size wordMax ∧
        count ≤ q.slots.size ∧ Within count q := by
  induction fuel with
  | zero =>
    intro index p q stop input rest hindex hwithin hfuel hrun
    obtain ⟨hpair, -⟩ := pure_eq_ok.1 hrun
    cases hpair
    exact ⟨⟨[], rfl⟩, hindex, by omega, hwithin⟩
  | succ fuel ih =>
    intro index p q stop input rest hindex hwithin hfuel hrun
    rw [readConstants_succ] at hrun
    split at hrun
    · rename_i hlt
      have hsize : p.slots.size < count := by omega
      obtain ⟨c, mid, -, hrest⟩ := bind_eq_ok.1 hrun
      have happend : (p.append c).slots.size = p.slots.size + c.width := size_pushSlots p.slots c
      have hwidth := c.width_pos
      obtain ⟨⟨cs, hcs⟩, hstop⟩ := ih (by omega) (Within.append hsize c) (by omega) hrest
      exact ⟨⟨c :: cs, hcs⟩, hstop⟩
    · obtain ⟨hpair, -⟩ := pure_eq_ok.1 hrun
      cases hpair
      exact ⟨⟨[], rfl⟩, hindex, by omega, hwithin⟩

/-- A pool that has been read ends at its count, or at the largest word with a number behind. -/
theorem readPool_eq_ok {pool : ConstantPool} {input rest : List UInt8}
    (h : readPool input = .ok (pool, rest)) :
    ∃ count : UInt16, (∃ mid, input = word16 count ++ mid) ∧ 0 < count.toNat ∧
      (∃ cs : List Constant, pool.slots = cs.foldl pushSlots #[none]) ∧
      (pool.slots.size = count.toNat ∨
        count.toNat = wordMax ∧ pool.slots.size = wordMax + 1 ∧ pool.Straddles wordMax) := by
  obtain ⟨count, mid, hcount, hbody⟩ := bind_eq_ok.1 h
  obtain ⟨⟨index, q⟩, mid', hconstants, hguard⟩ := bind_eq_ok.1 hbody
  obtain ⟨hend, hpure⟩ := guard_eq_ok.1 hguard
  obtain ⟨rfl, rfl⟩ := pure_eq_ok.1 hpure
  have hend : index = count.toNat := not_not.1 hend
  have hle : count.toNat ≤ wordMax := Nat.le_of_lt_succ count.toNat_lt
  have hpos : 0 < count.toNat := by
    rcases Nat.eq_zero_or_pos count.toNat with hzero | hpos
    · -- A count of zero stops the loop at index 1, which is not the count.
      rw [hzero] at hconstants
      cases hconstants
      omega
    · exact hpos
  obtain ⟨⟨cs, hcs⟩, hstop, hsize, hwithin⟩ :=
    readConstants_eq_ok hle count.toNat (p := .empty) rfl (.inl hpos) (by omega) hconstants
  refine ⟨count, ⟨mid, u16_eq_ok.1 hcount⟩, hpos, ⟨cs, ?_⟩, ?_⟩
  · rw [hcs, slots_foldl_append]
    rfl
  · rcases hwithin with hle' | ⟨hover, hstraddles⟩
    · exact .inl (by omega)
    · have hmax : count.toNat = wordMax := by omega
      rw [hmax] at hover hstraddles
      exact .inr ⟨hmax, hover, hstraddles⟩

/-! ### Whole class files -/

/-- The count of indices that a class file declares, in the word behind magic number and
version. -/
def declaredCount (input : List UInt8) : Nat := beValue ((input.drop 8).take 2)

theorem declaredCount_eq {input rest : List UInt8} {count : UInt16}
    (h : input.drop 8 = word16 count ++ rest) : declaredCount input = count.toNat := by
  have htake : (word16 count ++ rest).take 2 = word16 count := List.take_left' (length_beBytes ..)
  rw [declaredCount, h, htake, word16, beValue_beBytes]
  exact Nat.mod_eq_of_lt count.toNat_lt

/-- The pool of a class file follows magic number and version. -/
theorem readPool_of_read {input rest : List UInt8} {image : ClassImage}
    (h : read input = .ok (image, rest)) :
    ∃ mid, readPool (input.drop 8) = .ok (image.pool, mid) := by
  obtain ⟨magic, m, hmagic, h⟩ := bind_eq_ok.1 h
  obtain ⟨-, h⟩ := guard_eq_ok.1 h
  obtain ⟨minor, m, hminor, h⟩ := bind_eq_ok.1 h
  obtain ⟨major, m, hmajor, h⟩ := bind_eq_ok.1 h
  obtain ⟨pool, mid, hpool, h⟩ := bind_eq_ok.1 h
  obtain ⟨access, m, -, h⟩ := bind_eq_ok.1 h
  obtain ⟨name, m, -, h⟩ := bind_eq_ok.1 h
  obtain ⟨superName, m, -, h⟩ := bind_eq_ok.1 h
  obtain ⟨interfaces, m, -, h⟩ := bind_eq_ok.1 h
  obtain ⟨fields, m, -, h⟩ := bind_eq_ok.1 h
  obtain ⟨methods, m, -, h⟩ := bind_eq_ok.1 h
  obtain ⟨attributes, m, -, h⟩ := bind_eq_ok.1 h
  obtain ⟨source, m, -, h⟩ := bind_eq_ok.1 h
  obtain ⟨rfl, rfl⟩ := pure_eq_ok.1 h
  rw [u32_eq_ok] at hmagic
  rw [u16_eq_ok] at hminor hmajor
  subst hmagic hminor hmajor
  exact ⟨mid, hpool⟩

/-- **The extent of a pool that has been read.**  It is the declared count, and so is the count of
the pool, unless a 64-bit number straddles the declared end. That passes at the largest count
alone; the pool then ends one index further and its own count has wrapped to zero. -/
theorem extent_of_ofBytes {input : List UInt8} {image : ClassImage}
    (h : ofBytes input = .ok image) :
    (¬image.pool.Straddles (declaredCount input) →
      image.pool.extent = declaredCount input ∧ image.pool.count.toNat = declaredCount input) ∧
    (image.pool.Straddles (declaredCount input) →
      declaredCount input = 65535 ∧ image.pool.extent = 65536 ∧ image.pool.count = 0) := by
  obtain ⟨mid, hpool⟩ := readPool_of_read (ofBytes_eq_ok.1 h)
  obtain ⟨count, ⟨rest, hinput⟩, hpos, ⟨cs, hslots⟩, hsize⟩ := readPool_eq_ok hpool
  rw [declaredCount_eq hinput, extent_eq_size hslots]
  rcases hsize with hsize | ⟨hmax, hsize, hstraddles⟩
  · have hcount : image.pool.count.toNat = count.toNat := by
      rw [ConstantPool.count, hsize, UInt16.ofNat_toNat]
    refine ⟨fun _ => ⟨hsize, hcount⟩, fun hstraddles => ?_⟩
    have hlt := hstraddles.lt_size hslots hpos
    omega
  · refine ⟨fun hnot => absurd (hmax ▸ hstraddles) hnot, fun _ => ⟨hmax, hsize, ?_⟩⟩
    rw [ConstantPool.count, hsize]
    rfl

/-- The bytes of a class without members, behind a pool of the given count. The second constant
names the class, which is its own superclass. -/
def plainClass (count : UInt16) (constants : List Constant) : List UInt8 :=
  word32 classMagic ++ (word16 0 ++ (word16 49 ++ ((word16 count ++
    constants.flatMap Constant.encode) ++ (word16 33 ++ (word16 2 ++ (word16 2 ++
      (count16 0 ++ (count16 0 ++ (count16 0 ++ count16 0)))))))))

theorem declaredCount_plainClass (count : UInt16) (constants : List Constant) :
    declaredCount (plainClass count constants) = count.toNat :=
  declaredCount_eq (List.append_assoc ..)

theorem extent_of_ofBytes_number :
    ∃ image, ofBytes (plainClass 5 [.utf8 "a", .classRef 1, .long 7]) = .ok image ∧
      ¬image.pool.Straddles 5 ∧ image.pool.extent = 5 ∧ image.pool.count.toNat = 5 := by
  have hread : (ofBytes (plainClass 5 [.utf8 "a", .classRef 1, .long 7])).toOption.any
      (fun image => image.pool.slots[4]? == some none) = true := by decide +kernel
  obtain ⟨image, hok, htest⟩ := Except.exists_ok_of_any hread
  have hdeclared : declaredCount (plainClass 5 [.utf8 "a", .classRef 1, .long 7]) = 5 :=
    declaredCount_plainClass 5 _
  have hnot : ¬image.pool.Straddles 5 := by
    rintro ⟨c, hc, -⟩
    rw [beq_iff_eq] at htest
    cases htest.symm.trans hc
  have hextent := (extent_of_ofBytes hok).1
  rw [hdeclared] at hextent
  exact ⟨image, hok, hnot, hextent hnot⟩

/-! ### A pool that is too long -/

/-- **A pool of the largest count is read although a 64-bit number straddles its end**, whatever
constants stand before the number. -/
theorem reads_straddling {cs : List Constant} {c : Constant} (hstorable : ∀ d ∈ cs, d.Storable)
    (hsize : (cs.foldl ConstantPool.append .empty).slots.size + 1 = wordMax) (hwide : c.width = 2) :
    Reads readPool (word16 65535 ++ (cs ++ [c]).flatMap Constant.encode)
      ((cs ++ [c]).foldl ConstantPool.append .empty) := by
  have hc : c.Storable := by
    cases c with
    | long | double => trivial
    | _ => cases hwide
  have hlen := size_le_foldl_append cs .empty
  obtain ⟨fuel, hfuel⟩ : ∃ fuel, wordMax = cs.length + (fuel + 1) :=
    ⟨wordMax - cs.length - 1, by omega⟩
  -- The end of the number is past the largest word, where the index stops.
  have hlast : Reads (readConstants wordMax (fuel + 1)
      (cs.foldl ConstantPool.append .empty).slots.size (cs.foldl ConstantPool.append .empty))
      c.encode (wordMax, (cs ++ [c]).foldl ConstantPool.append .empty) := by
    rw [readConstants_succ, if_pos (by omega)]
    refine (reads_constant hc _).bind_last ?_
    rw [hwide, Nat.min_eq_right (by omega), readConstants_of_le (Nat.le_refl _), List.foldl_append]
    exact Reads.pure _
  have hall := reads_constants_append (Nat.le_refl wordMax) cs .empty hstorable (by omega) hlast
  rw [← hfuel] at hall
  rw [List.flatMap_append, List.flatMap_singleton]
  refine (reads_u16 65535).bind ?_
  have hcount : (65535 : UInt16).toNat = wordMax := rfl
  rw [hcount]
  refine hall.bind_last ?_
  simp only [ne_eq, not_true_eq_false, if_false]
  exact Reads.pure _

/-- A class is read behind any pool whose second constant names it. -/
theorem reads_plainClass {count : UInt16} {cs : List Constant} {pool : ConstantPool}
    {name : String} (hpool : Reads readPool (word16 count ++ cs.flatMap Constant.encode) pool)
    (hname : pool.classAt 2 = .ok name) :
    ∃ image, ofBytes (plainClass count cs) = .ok image ∧ image.pool = pool := by
  have hclass : Reads (readClassName pool) (word16 2) name :=
    (reads_u16 2).bind_last (Reads.ofExcept hname)
  have hnone : ∀ {α : Type} (item : Reader α), Reads (counted item) (count16 0) [] :=
    fun item rest => rfl
  have hread : Reads read (plainClass count cs)
      ⟨⟨49, 0⟩, pool, ⟨33⟩, name, name, [], [], [], none, none⟩ :=
    (reads_u32 classMagic).bind <| (reads_u16 0).bind <| (reads_u16 49).bind <| hpool.bind <|
      (reads_u16 33).bind <| hclass.bind <| hclass.bind <| (hnone _).bind <| (hnone _).bind <|
        (hnone _).bind <| (reads_u16 0).bind_last <|
          (Reads.pure ((none : Option String), (none : Option String))).bind_last <| Reads.pure _
  have hrun := hread []
  rw [List.append_nil] at hrun
  exact ⟨_, ofBytes_eq_ok.2 hrun, rfl⟩

/-- Constants that name a class and fill the pool up to its last index. -/
def fillers (n : Nat) : List Constant :=
  [.utf8 "a", .classRef 1] ++ List.replicate n (.classRef 1)

theorem storable_fillers (n : Nat) : ∀ c ∈ fillers n, c.Storable := by
  intro c hc
  rcases List.mem_append.1 hc with hc | hc
  · rcases List.mem_pair.1 hc with rfl | rfl
    · show ModifiedUtf8.encodedLength "a" ≤ wordMax
      decide
    · trivial
  · rw [List.eq_of_mem_replicate hc]
    trivial

theorem size_fillers (n : Nat) : ((fillers n).foldl pushSlots #[none]).size = n + 3 := by
  rw [size_foldl_pushSlots, fillers, List.map_append, List.map_replicate, List.sum_append,
    List.sum_replicate]
  simp [Constant.width]
  omega

/-- With enough fillers a 64-bit number behind them straddles the largest count. -/
theorem ofBytes_fillers {n : Nat} (hn : n + 4 = wordMax) :
    ∃ image, ofBytes (plainClass 65535 (fillers n ++ [.long 7])) = .ok image ∧
      image.pool.extent = wordMax + 1 ∧ image.pool.slots.size = wordMax + 1 ∧
      image.pool.Straddles wordMax := by
  have hsize : ((fillers n).foldl ConstantPool.append .empty).slots.size + 1 = wordMax := by
    rw [slots_foldl_append, ← hn]
    exact congrArg (· + 1) (size_fillers n)
  have hname : ((fillers n ++ [Constant.long 7]).foldl ConstantPool.append .empty).classAt 2
      = .ok "a" := by
    have hfront : ([Constant.utf8 "a", .classRef 1].foldl ConstantPool.append .empty).classAt 2
        = .ok "a" := rfl
    rw [fillers, List.append_assoc, List.foldl_append]
    exact (extends_foldl_append _ _).classAt hfront
  obtain ⟨image, hok, hpool⟩ := reads_plainClass
    (reads_straddling (c := .long 7) (storable_fillers n) hsize rfl) hname
  have hslots : image.pool.slots = (fillers n ++ [Constant.long 7]).foldl pushSlots #[none] := by
    rw [hpool, slots_foldl_append]
    rfl
  have hpush : image.pool.slots = pushSlots ((fillers n).foldl pushSlots #[none]) (.long 7) := by
    rw [hslots, List.foldl_append]
    rfl
  have htotal : image.pool.slots.size = wordMax + 1 := by
    rw [hpush, size_pushSlots, size_fillers, ← hn]
    rfl
  refine ⟨image, hok, (extent_eq_size hslots).trans htotal, htotal, .long 7, ?_, rfl⟩
  have hlast : wordMax - 1 = ((fillers n).foldl pushSlots #[none]).size := by
    rw [size_fillers, ← hn]
    rfl
  rw [hpush, hlast]
  exact getElem?_pushSlots_size _ _

/-- A class whose pool declares the largest count and has a 64-bit number at the last index. -/
def straddlingClass : List UInt8 := plainClass 65535 (fillers 65531 ++ [.long 7])

/-- **A pool of the largest count can be one index too long**: the class is read, its extent is not
the declared count, and its own count is zero. -/
theorem extent_straddlingClass :
    ∃ image, ofBytes straddlingClass = .ok image ∧ declaredCount straddlingClass = 65535 ∧
      image.pool.extent = 65536 ∧ image.pool.count = 0 ∧ image.pool.Straddles 65535 := by
  obtain ⟨image, hok, hextent, hsize, hstraddles⟩ := ofBytes_fillers (n := 65531) (by decide)
  refine ⟨image, hok, declaredCount_plainClass 65535 _, hextent, ?_, hstraddles⟩
  rw [ConstantPool.count, hsize]
  rfl

end ClassImage

end ClassForge
