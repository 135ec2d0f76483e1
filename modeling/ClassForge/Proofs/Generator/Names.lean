import ClassForge.Generator.Basic
import ClassForge.Proofs.Generator.DumpPath
import Mathlib.Data.List.Nodup
import Std.Data.String.ToNat

/-!
# Names of generated classes

Every generated class gets a name of its own. The name ends in the number of the class, and the text
of the helper before it may look like anything, the end of another name included.

* `toList_adapterName` — **PROVED**: a name is the helper's name, a mark that has neither a slash
  nor a dot, and the number;
* `number_unique` — **PROVED**: the number is what follows the last underscore;
* `NameSupply.takeAll` — the names that requests get, one after another;
* `NameSupply.nodup_map_takeAll` — **PROVED**: what tells the number tells the names apart, as long
  as the numbers do not start over;
* `NameSupply.takeAll_distinct` — **PROVED**: names, external names, dump paths and the places they
  lead to are distinct, and no dump path leaves its directory.
-/

namespace ClassForge

open DumpPath

/-! ### The number of a name -/

/-- The decimal digits of a number. -/
def decimal (n : Nat) : List Char := Nat.toDigits 10 n

theorem isDigit_of_mem_decimal {n : Nat} {c : Char} (h : c ∈ decimal n) : c.isDigit = true :=
  Nat.isDigit_of_mem_toDigits (by decide) (by decide) h

theorem decimal_inj {n m : Nat} (h : decimal n = decimal m) : n = m :=
  Nat.repr_injective (congrArg String.ofList h)

/-- A character that is no digit is none of the digits. -/
theorem not_mem_decimal {c : Char} (hc : c.isDigit = false) (n : Nat) : c ∉ decimal n := by
  intro h
  rw [isDigit_of_mem_decimal h] at hc
  cases hc

/-- What follows the last occurrence of a character. -/
def afterLast (c : Char) (text : List Char) : List Char :=
  (text.reverse.takeWhile (· ≠ c)).reverse

theorem afterLast_append {c : Char} {ys : List Char} (h : c ∉ ys) (xs : List Char) :
    afterLast c (xs ++ c :: ys) = ys := by
  have hall : ∀ d ∈ ys.reverse, decide (d ≠ c) = true := by
    intro d hd
    have hne : d ≠ c := fun heq => h (heq ▸ List.mem_reverse.1 hd)
    exact decide_eq_true hne
  unfold afterLast
  rw [List.reverse_append, List.reverse_cons, List.append_assoc, List.takeWhile_append_of_pos hall]
  simp

/-- A text that ends in an underscore and a number has one such number. -/
theorem number_unique {xs xs' : List Char} {n n' : Nat}
    (h : xs ++ '_' :: decimal n = xs' ++ '_' :: decimal n') : n = n' := by
  have hlast := congrArg (afterLast '_') h
  rw [afterLast_append (not_mem_decimal rfl n), afterLast_append (not_mem_decimal rfl n')] at hlast
  exact decimal_inj hlast

/-! ### Spelling -/

/-- What stands between the name of the helper and the number. -/
def adapterMark (strategy : Strategy) : List Char :=
  "_HelperAdapter_".toList ++ strategy.tag.toList

theorem toList_adapterName (helper : HelperClass) (strategy : Strategy) (number : Nat) :
    (adapterName helper strategy number).toList =
      helper.name.toList ++ (adapterMark strategy ++ '_' :: decimal number) := by
  show (helper.name ++ "_HelperAdapter_" ++ strategy.tag ++ "_" ++ Nat.repr number).toList = _
  unfold adapterMark decimal Nat.repr
  simp only [String.toList_append, String.toList_ofList, List.append_assoc]
  rfl

/-- The mark and the number have neither a slash nor a dot. -/
theorem not_mem_mark {c : Char} (hc : c = '/' ∨ c = '.') (strategy : Strategy) (number : Nat) :
    c ∉ adapterMark strategy ++ '_' :: decimal number := by
  have hmark : c ∉ adapterMark strategy := by
    rcases hc with rfl | rfl <;> cases strategy <;> decide
  have hdigit : c.isDigit = false ∧ c ≠ '_' := by
    rcases hc with rfl | rfl <;> decide
  rw [List.mem_append, List.mem_cons, not_or, not_or]
  exact ⟨hmark, hdigit.2, not_mem_decimal hdigit.1 number⟩

/-- The internal spelling of a name has no dots. -/
theorem dotless_internalName (name : String) : '.' ∉ (internalName name).toList := by
  unfold internalName
  rw [String.toList_map]
  intro h
  obtain ⟨c, -, hc⟩ := List.mem_map.1 h
  split at hc
  · cases hc
  · rename_i hne
    exact hne hc

/-- **The name of an adapter is a plain class name**, whatever its helper is called. -/
theorem exists_isPlain_adapterName (text : String) (constructors : List ConstructorDecl)
    (strategy : Strategy) (number : Nat) :
    ∃ packages front, IsPlain (adapterName (.ofName text constructors) strategy number).toList
      packages (front ++ '_' :: decimal number) := by
  rw [toList_adapterName]
  obtain ⟨packages, last, -, hsegs⟩ := segments_append (not_mem_mark (.inl rfl) strategy number)
    (HelperClass.ofName text constructors).name.toList
  refine ⟨packages, last ++ adapterMark strategy, ?_, ?_, ?_⟩
  · rw [hsegs, List.append_assoc]
  · rw [List.mem_append, not_or]
    exact ⟨dotless_internalName text, not_mem_mark (.inr rfl) strategy number⟩
  · simp

/-- The external name shows the number as well. -/
theorem exists_toList_binaryName (helper : HelperClass) (strategy : Strategy) (number : Nat) :
    ∃ front, (binaryName (adapterName helper strategy number)).toList =
      front ++ '_' :: decimal number := by
  have hdigits : (decimal number).map (fun c => if c = '/' then '.' else c) = decimal number := by
    refine (List.map_congr_left fun c hc => ?_).trans (List.map_id _)
    have hne : c ≠ '/' := fun heq => not_mem_decimal (c := '/') rfl number (heq ▸ hc)
    exact if_neg hne
  unfold binaryName
  rw [String.toList_map, toList_adapterName, ← List.append_assoc, List.map_append, List.map_cons,
    hdigits]
  exact ⟨_, rfl⟩

/-! ### Requests -/

/-- A request for a name: the helper as it is written, and the strategy. -/
structure NameRequest where
  helper : String
  constructors : List ConstructorDecl
  strategy : Strategy

/-- The name with a number that a request gets. -/
def NameRequest.named (r : NameRequest) (number : Nat) : String :=
  adapterName (.ofName r.helper r.constructors) r.strategy number

namespace NameSupply

/-- The names that requests get, one after another. -/
def takeAll : NameSupply → List NameRequest → List String
  | _, [] => []
  | s, r :: rest =>
    let (name, s) := s.take (.ofName r.helper r.constructors) r.strategy
    name :: takeAll s rest

theorem takeAll_cons (s : NameSupply) (r : NameRequest) (rest : List NameRequest) :
    s.takeAll (r :: rest) = r.named s.next.toNat :: takeAll ⟨s.next + 1⟩ rest := rfl

/-- The names have the numbers from the next one on. -/
theorem exists_of_mem_takeAll {requests : List NameRequest} {s : NameSupply} {name : String}
    (h : name ∈ s.takeAll requests) :
    ∃ (r : NameRequest) (k : Nat), k < requests.length ∧
      name = r.named (s.next + UInt64.ofNat k).toNat := by
  induction requests generalizing s with
  | nil => cases h
  | cons r rest ih =>
    rw [takeAll_cons, List.mem_cons] at h
    rcases h with rfl | h
    · exact ⟨r, 0, Nat.succ_pos _, by simp⟩
    · obtain ⟨r', k, hk, rfl⟩ := ih h
      refine ⟨r', k + 1, Nat.succ_lt_succ hk, ?_⟩
      have hsum : s.next + 1 + UInt64.ofNat k = s.next + UInt64.ofNat (k + 1) := by
        rw [UInt64.ofNat_add, UInt64.add_assoc, UInt64.add_comm 1]
        rfl
      rw [hsum]

/-- **What tells the number tells the names apart**, until the numbers start over. -/
theorem nodup_map_takeAll {β : Type} {f : String → β}
    (hf : ∀ (r r' : NameRequest) n n', f (r.named n) = f (r'.named n') → n = n')
    {requests : List NameRequest} (s : NameSupply) (h : requests.length ≤ UInt64.size) :
    ((s.takeAll requests).map f).Nodup := by
  induction requests generalizing s with
  | nil => exact List.nodup_nil
  | cons r rest ih =>
    have hlen : rest.length + 1 ≤ 18446744073709551616 := h
    rw [takeAll_cons, List.map_cons, List.nodup_cons]
    refine ⟨fun hmem => ?_, ih _ (Nat.le_of_succ_le h)⟩
    obtain ⟨name, hname, heq⟩ := List.mem_map.1 hmem
    obtain ⟨r', k, hk, rfl⟩ := exists_of_mem_takeAll hname
    have hnumber := hf r' r _ _ heq
    -- The later number is ahead by less than a full turn.
    rw [UInt64.toNat_add, UInt64.toNat_add, UInt64.toNat_ofNat'] at hnumber
    have hnext := s.next.toNat_lt
    have hone : (1 : UInt64).toNat = 1 := rfl
    omega

variable {requests : List NameRequest}

/-- The dump path of a name is the directory extended by components, none of which leads back, and
ends in the last segment of the name with the extension. -/
def StaysBelow (dir name : String) : Prop :=
  ∃ packages last, segments name.toList = packages ++ [last] ∧
    route (ofName dir name).toList = (route dir.toList).extend (added packages last) ∧
    (∀ part ∈ added packages last, part ≠ ['.'] ∧ part ≠ ['.', '.']) ∧
    last ++ ".class".toList <:+ (ofName dir name).toList

theorem staysBelow_named (dir : String) (r : NameRequest) (number : Nat) :
    StaysBelow dir (r.named number) := by
  obtain ⟨packages, front, hplain⟩ :=
    exists_isPlain_adapterName r.helper r.constructors r.strategy number
  exact ⟨packages, _, hplain.segments, route_ofName dir hplain, hplain.added_ne,
    suffix_ofName dir hplain⟩

/-! ### What tells the number -/

section Numbers

variable {r r' : NameRequest} {n n' : Nat}

theorem number_of_named (h : r.named n = r'.named n') : n = n' := by
  have hlist := congrArg String.toList h
  unfold NameRequest.named at hlist
  rw [toList_adapterName, toList_adapterName, ← List.append_assoc, ← List.append_assoc] at hlist
  exact number_unique hlist

theorem number_of_binaryName (h : binaryName (r.named n) = binaryName (r'.named n')) : n = n' := by
  obtain ⟨front, hfront⟩ := exists_toList_binaryName (.ofName r.helper r.constructors) r.strategy n
  obtain ⟨front', hfront'⟩ :=
    exists_toList_binaryName (.ofName r'.helper r'.constructors) r'.strategy n'
  have hlist := congrArg String.toList h
  unfold NameRequest.named at hlist
  rw [hfront, hfront'] at hlist
  exact number_unique hlist

/-- The place that a dump path leads to tells the number. -/
theorem number_of_route (dir : String)
    (h : route (ofName dir (r.named n)).toList = route (ofName dir (r'.named n')).toList) :
    n = n' := by
  obtain ⟨packages, front, hplain⟩ :=
    exists_isPlain_adapterName r.helper r.constructors r.strategy n
  obtain ⟨packages', front', hplain'⟩ :=
    exists_isPlain_adapterName r'.helper r'.constructors r'.strategy n'
  unfold NameRequest.named at h
  rw [route_ofName dir hplain, route_ofName dir hplain'] at h
  have hcomponents := congrArg Route.components h
  unfold Route.extend added at hcomponents
  simp only [← List.append_assoc] at hcomponents
  have hlast := List.append_inj_right' hcomponents rfl
  rw [List.singleton_inj] at hlast
  exact number_unique (List.append_cancel_right hlast)

end Numbers

/-- **Names never clash and dump paths never escape.**  Take any requests, no more than there are
numbers, whatever number comes next. Their names are distinct, and so are the external names, the
dump paths below any directory, and the places that these lead to. Each dump path is the directory
extended by components, none of which is `.` or `..`, and ends in the last segment of the name with
the extension `class`. -/
theorem takeAll_distinct (s : NameSupply) (h : requests.length ≤ UInt64.size) (dir : String) :
    (s.takeAll requests).Nodup ∧
    ((s.takeAll requests).map binaryName).Nodup ∧
    ((s.takeAll requests).map (ofName dir)).Nodup ∧
    ((s.takeAll requests).map fun name => route (ofName dir name).toList).Nodup ∧
    ∀ name ∈ s.takeAll requests, StaysBelow dir name := by
  have hroutes : ((s.takeAll requests).map fun name => route (ofName dir name).toList).Nodup :=
    nodup_map_takeAll (f := fun name => route (ofName dir name).toList)
      (fun _ _ _ _ => number_of_route dir) s h
  refine ⟨?_, nodup_map_takeAll (fun _ _ _ _ => number_of_binaryName) s h, ?_, hroutes,
    fun name hname => ?_⟩
  · have hnames := nodup_map_takeAll (f := id) (fun _ _ _ _ => number_of_named) s h
    rwa [List.map_id] at hnames
  · -- Paths that lead to different places are different texts.
    refine List.Nodup.of_map (fun path => route path.toList) ?_
    rw [List.map_map]
    exact hroutes
  · obtain ⟨r, k, -, rfl⟩ := exists_of_mem_takeAll hname
    exact staysBelow_named dir r _

/-- Two requests, the second of which is for a helper that is called like the class of the first. -/
def lookalikes : List NameRequest :=
  [⟨"org.acme.Helper", [], .compiled⟩,
    ⟨"..org/acme.Helper_HelperAdapter_Compiled_0", [], .compiled⟩]

theorem takeAll_lookalikes :
    lookalikes.length ≤ UInt64.size ∧ (takeAll {} lookalikes).Nodup ∧
      ∀ name ∈ takeAll {} lookalikes, StaysBelow "/tmp/out" name := by
  have hlen : lookalikes.length ≤ UInt64.size := by decide
  obtain ⟨hnodup, -, -, -, hbelow⟩ := takeAll_distinct {} hlen "/tmp/out"
  exact ⟨hlen, hnodup, hbelow⟩

end NameSupply

end ClassForge
