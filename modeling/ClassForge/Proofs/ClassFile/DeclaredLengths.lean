import ClassForge.Proofs.ClassFile.Layout

/-!
# Declared lengths and the bytes taken

The reader of a class takes bodies, line tables, exceptions and source files by their own structure
and does not look at the length that they declare. A reader that goes by lengths alone then cuts the
same bytes in another way.

* `Follows` — over the bytes of a part, a reader finds the part exactly if a condition holds;
* `follows_attribute`, `Follows.counted`, `follows_member` — **PROVED**: for the reader that goes by
  lengths the condition is that all lengths are exact, part by part;
* `ofBytes_by_structure` — **PROVED**: which bytes the reader accepts, which attributes can be
  inexact then, and that the two readers agree exactly if none is;
* `overstated` — a class with four attributes that declare more bytes than they have.
-/

namespace ClassForge

open Reader ClassDraft

/-! ### The parts without their lengths -/

/-- An attribute by name and content. -/
def AttributeLayout.raw (a : AttributeLayout) : RawAttribute := ⟨a.name, a.content⟩

def MemberLayout.raw (m : MemberLayout) : RawMember :=
  ⟨m.access, m.name, m.descriptor, m.attributes.map fun a => a.raw⟩

namespace ClassLayout

def raw (l : ClassLayout) : RawClass where
  version := l.version
  pool := l.pool
  access := l.access
  thisClass := l.thisClass
  superClass := l.superClass
  interfaces := l.interfaces
  fields := l.fields.map MemberLayout.raw
  methods := l.methods.map MemberLayout.raw
  attributes := l.attributes.map AttributeLayout.raw

/-- The attributes of the members and of the class. -/
def outer (l : ClassLayout) : List AttributeLayout :=
  (l.fields ++ l.methods).flatMap (fun m => m.attributes.map OuterLayout.toAttributeLayout) ++
    l.attributes

/-- The attributes inside of bodies. -/
def inner (l : ClassLayout) : List AttributeLayout :=
  l.methods.flatMap fun m => m.attributes.flatMap OuterLayout.inner

end ClassLayout

/-! ### Going by lengths -/

namespace Reader

variable {α β lay : Type}

theorem Reads.run_bind {r : Reader α} {f : α → Reader β} {bs : List UInt8} {a : α}
    (h : Reads r bs a) (rest : List UInt8) : (r >>= f) (bs ++ rest) = f a rest := by
  rw [Reader.run_bind, h rest]
  rfl

/-- **Over the bytes of a part the reader finds the part, and its end, exactly if it is good.** -/
def Follows (r : Reader β) (encode : lay → List UInt8) (raw : lay → β) (Good : lay → Prop) : Prop :=
  ∀ l rest rest', r (encode l ++ rest) = .ok (raw l, rest') ↔ Good l ∧ rest' = rest

/-- Items are put in front of those that were read before. -/
theorem exists_of_iterate_item {item : Reader α} (n : Nat) :
    ∀ {done items : List α} {input rest : List UInt8},
      iterate (fun items => do let x ← item; return x :: items) n done input = .ok (items, rest) →
      ∃ xs, items = xs ++ done := by
  induction n with
  | zero =>
    intro done items input rest h
    obtain ⟨rfl, -⟩ := pure_eq_ok.1 h
    exact ⟨[], rfl⟩
  | succ n ih =>
    intro done items input rest h
    rw [iterate_succ] at h
    obtain ⟨more, mid, hstep, hrest⟩ := bind_eq_ok.1 h
    obtain ⟨x, mid', -, hpure⟩ := bind_eq_ok.1 hstep
    obtain ⟨rfl, -⟩ := pure_eq_ok.1 hpure
    obtain ⟨xs, rfl⟩ := ih hrest
    exact ⟨xs ++ [x], by rw [List.append_assoc]; rfl⟩

theorem Follows.iterate {item : Reader β} {encode : lay → List UInt8} {raw : lay → β}
    {Good : lay → Prop} (h : Follows item encode raw Good) (ls : List lay) :
    ∀ (done : List β) (rest rest' : List UInt8),
      Reader.iterate (fun items => do let x ← item; return x :: items) ls.length done
        (ls.flatMap encode ++ rest) = .ok ((ls.map raw).reverse ++ done, rest') ↔
      (∀ l ∈ ls, Good l) ∧ rest' = rest := by
  induction ls with
  | nil =>
    intro done rest rest'
    refine pure_eq_ok.trans ?_
    simp [eq_comm]
  | cons l ls ih =>
    intro done rest rest'
    rw [List.length_cons, iterate_succ, List.flatMap_cons, List.append_assoc, List.map_cons,
      List.reverse_cons, List.append_assoc, List.singleton_append, List.forall_mem_cons]
    constructor
    · intro hrun
      obtain ⟨items, mid, hstep, hrest⟩ := bind_eq_ok.1 hrun
      obtain ⟨x, mid', hitem, hpure⟩ := bind_eq_ok.1 hstep
      obtain ⟨rfl, rfl⟩ := pure_eq_ok.1 hpure
      -- All items together are those of the parts, so this one is that of the first part.
      obtain ⟨xs, hxs⟩ := exists_of_iterate_item _ hrest
      have hall : ((ls.map raw).reverse ++ [raw l]) ++ done = (xs ++ [x]) ++ done := by
        rw [List.append_assoc, List.append_assoc]
        exact hxs
      obtain ⟨-, hx⟩ := List.append_inj' (List.append_cancel_right hall) rfl
      cases hx
      obtain ⟨hl, rfl⟩ := (h l _ _).1 hitem
      obtain ⟨hls, rfl⟩ := (ih _ _ _).1 hrest
      exact ⟨⟨hl, hls⟩, rfl⟩
    · rintro ⟨⟨hl, hls⟩, rfl⟩
      refine bind_eq_ok.2 ⟨raw l :: done, ls.flatMap encode ++ rest', bind_eq_ok.2
        ⟨raw l, _, (h l _ _).2 ⟨hl, rfl⟩, rfl⟩, (ih _ _ _).2 ⟨hls, rfl⟩⟩

/-- **Counted parts are followed one by one.** -/
theorem Follows.counted {item : Reader β} {encode : lay → List UInt8} {raw : lay → β}
    {Good : lay → Prop} (h : Follows item encode raw Good) {ls : List lay}
    (hle : ls.length ≤ wordMax) (rest rest' : List UInt8) :
    Reader.counted item (encodeCounted encode ls ++ rest) = .ok (ls.map raw, rest') ↔
      (∀ l ∈ ls, Good l) ∧ rest' = rest := by
  obtain ⟨hcount, hvalue⟩ := reads_count16 hle
  unfold Reader.counted many
  rw [encodeCounted, List.append_assoc, hcount.run_bind, hvalue, ← h.iterate ls [] rest rest',
    List.append_nil]
  constructor
  · intro hrun
    obtain ⟨items, mid, hitems, hpure⟩ := bind_eq_ok.1 hrun
    obtain ⟨hreverse, rfl⟩ := pure_eq_ok.1 hpure
    rw [← hreverse, List.reverse_reverse]
    exact hitems
  · intro hrun
    exact bind_eq_ok.2 ⟨_, rest', hrun, by rw [List.reverse_reverse]; rfl⟩

end Reader

/-- An attribute is found by its length exactly if the length is exact. -/
theorem follows_attribute :
    Follows RawAttribute.read AttributeLayout.bytes AttributeLayout.raw AttributeLayout.Exact := by
  intro a rest rest'
  rw [a.bytes_append, RawAttribute.read, (reads_u16 a.name).run_bind,
    (reads_u32 a.declared).run_bind, bind_eq_ok]
  constructor
  · rintro ⟨content, mid, hbytes, hpure⟩
    obtain ⟨hlen, happend⟩ := bytes_eq_ok.1 hbytes
    obtain ⟨hraw, rfl⟩ := pure_eq_ok.1 hpure
    obtain rfl : content = a.content := congrArg RawAttribute.content hraw
    exact ⟨hlen, (List.append_cancel_left happend).symm⟩
  · rintro ⟨hexact, rfl⟩
    exact ⟨a.content, rest', bytes_eq_ok.2 ⟨hexact, rfl⟩, rfl⟩

theorem follows_outer :
    Follows RawAttribute.read (fun a : OuterLayout => a.bytes) (fun a => a.raw)
      (fun a => a.Exact) :=
  fun a => follows_attribute a.toAttributeLayout

theorem follows_member :
    Follows RawMember.read MemberLayout.bytes MemberLayout.raw
      (fun m => ∀ a ∈ m.attributes, a.Exact) := by
  intro m rest rest'
  rw [MemberLayout.bytes, List.append_assoc, List.append_assoc, List.append_assoc, RawMember.read,
    (reads_u16 m.access).run_bind, (reads_u16 m.name).run_bind, (reads_u16 m.descriptor).run_bind,
    ← follows_outer.counted m.attributes_le]
  constructor
  · intro hrun
    obtain ⟨attributes, mid, hattributes, hpure⟩ := bind_eq_ok.1 hrun
    obtain ⟨hraw, rfl⟩ := pure_eq_ok.1 hpure
    have hfound : attributes = m.attributes.map fun a => a.raw := congrArg RawMember.attributes hraw
    rw [hfound] at hattributes
    exact hattributes
  · intro hrun
    exact bind_eq_ok.2 ⟨_, rest', hrun, rfl⟩

namespace ClassLayout

theorem read_bytes (l : ClassLayout) (rest rest' : List UInt8) :
    RawClass.read (l.bytes ++ rest) = .ok (l.raw, rest') ↔
      ((∀ f ∈ l.fields, ∀ a ∈ f.attributes, a.Exact) ∧
        (∀ m ∈ l.methods, ∀ a ∈ m.attributes, a.Exact) ∧ ∀ a ∈ l.attributes, a.Exact) ∧
      rest' = rest := by
  have hinterfaces : Reads (Reader.counted u16) (encodeCounted word16 l.interfaces) l.interfaces :=
    ClassImage.reads_table reads_u16 l.interfaces_le
  unfold RawClass.read
  simp only [bytes, List.append_assoc]
  rw [(reads_u32 classMagic).run_bind, if_neg (not_not.2 rfl), (reads_u16 _).run_bind,
    (reads_u16 _).run_bind, l.reads_pool.run_bind, (reads_u16 _).run_bind, (reads_u16 _).run_bind,
    (reads_u16 _).run_bind, hinterfaces.run_bind]
  constructor
  · intro hrun
    obtain ⟨fields, m, hfields, hrun⟩ := bind_eq_ok.1 hrun
    obtain ⟨methods, m', hmethods, hrun⟩ := bind_eq_ok.1 hrun
    obtain ⟨attributes, m'', hattributes, hpure⟩ := bind_eq_ok.1 hrun
    obtain ⟨hraw, rfl⟩ := pure_eq_ok.1 hpure
    obtain rfl : fields = l.fields.map MemberLayout.raw := congrArg RawClass.fields hraw
    obtain rfl : methods = l.methods.map MemberLayout.raw := congrArg RawClass.methods hraw
    obtain rfl : attributes = l.attributes.map AttributeLayout.raw :=
      congrArg RawClass.attributes hraw
    obtain ⟨hexactF, rfl⟩ := (follows_member.counted l.fields_le _ _).1 hfields
    obtain ⟨hexactM, rfl⟩ := (follows_member.counted l.methods_le _ _).1 hmethods
    obtain ⟨hexact, rfl⟩ := (follows_attribute.counted l.attributes_le _ _).1 hattributes
    exact ⟨⟨hexactF, hexactM, hexact⟩, rfl⟩
  · rintro ⟨⟨hfields, hmethods, hattributes⟩, rfl⟩
    exact bind_eq_ok.2 ⟨_, _, (follows_member.counted l.fields_le _ _).2 ⟨hfields, rfl⟩,
      bind_eq_ok.2 ⟨_, _, (follows_member.counted l.methods_le _ _).2 ⟨hmethods, rfl⟩,
      bind_eq_ok.2 ⟨_, _, (follows_attribute.counted l.attributes_le _ _).2 ⟨hattributes, rfl⟩,
        rfl⟩⟩⟩

/-- **Going by lengths finds a layout exactly if the lengths are exact.** -/
theorem ofBytes_bytes (l : ClassLayout) :
    RawClass.ofBytes l.bytes = .ok l.raw ↔ ∀ a ∈ l.outer, a.Exact := by
  have hread : RawClass.ofBytes l.bytes = .ok l.raw ↔ RawClass.read l.bytes = .ok (l.raw, []) := by
    unfold RawClass.ofBytes
    split <;> simp_all
  have hparts := l.read_bytes [] []
  rw [List.append_nil] at hparts
  rw [hread, hparts]
  simp only [outer, List.mem_append, List.mem_flatMap, List.mem_map]
  constructor
  · rintro ⟨⟨hfields, hmethods, hattributes⟩, -⟩ a (⟨m, hm | hm, o, ho, rfl⟩ | ha)
    · exact hfields m hm o ho
    · exact hmethods m hm o ho
    · exact hattributes a ha
  · intro hall
    exact ⟨⟨fun f hf a ha => hall _ (.inl ⟨f, .inl hf, a, ha, rfl⟩),
      fun m hm a ha => hall _ (.inl ⟨m, .inr hm, a, ha, rfl⟩), fun a ha => hall a (.inr ha)⟩,
      trivial⟩

end ClassLayout

/-! ### Attributes that are read by their structure -/

/-- The kinds of attributes whose declared length the reader of a class does not look at. -/
def structuredKinds : List String := ["Code", "LineNumberTable", "Exceptions", "SourceFile"]

/-- An attribute is exact, or of a kind that is read by its structure. -/
def AttributeLayout.Excused (pool : ConstantPool) (a : AttributeLayout) : Prop :=
  a.Exact ∨ ∃ kind ∈ structuredKinds, pool.utf8At a.name = .ok kind

theorem forall_of_forall₂ {α β : Type} {R : α → β → Prop} {P : α → Prop} {xs : List α}
    {ys : List β} (h : List.Forall₂ R xs ys) (hP : ∀ x y, R x y → P x) : ∀ x ∈ xs, P x :=
  ((List.forall₂_and_left _ _).1 (h.imp fun x y hR => ⟨hP x y hR, hR⟩)).1

section Excused

variable {pool : ConstantPool}

theorem BodyAttributeShows.excused {a : AttributeLayout} {ls : List LineEntry}
    (h : BodyAttributeShows pool a ls) : a.Excused pool := by
  cases h with
  | lines hname => exact .inr ⟨_, by decide, hname⟩
  | skipped _ _ hexact => exact .inl hexact

theorem MethodAttributeShows.excused {a : OuterLayout} {v : Option MethodBody × List String}
    (h : MethodAttributeShows pool a v) : a.Excused pool ∧ ∀ x ∈ a.inner, x.Excused pool := by
  cases h with
  | code hname hbody =>
    obtain ⟨tables, htables, -⟩ := hbody.lines_eq
    exact ⟨.inr ⟨_, by decide, hname⟩, forall_of_forall₂ htables fun _ _ => (·.excused)⟩
  | exceptions hname hinner =>
    rw [hinner]
    exact ⟨.inr ⟨_, by decide, hname⟩, nofun⟩
  | skipped hname hcode hexceptions hinner hexact =>
    rw [hinner]
    exact ⟨.inl hexact, nofun⟩

theorem ClassAttributeShows.excused {a : AttributeLayout} {v : Option String × Option String}
    (h : ClassAttributeShows pool a v) : a.Excused pool := by
  cases h with
  | sourceFile hname => exact .inr ⟨_, by decide, hname⟩
  | sourceDebug _ hexact => exact .inl hexact
  | skipped _ _ _ hexact => exact .inl hexact

end Excused

/-- All attributes of a class that a layout depicts are excused. -/
theorem ClassLayout.Depicts.excused {l : ClassLayout} {c : ClassImage} (h : l.Depicts c) :
    ∀ a ∈ l.outer ++ l.inner, a.Excused l.pool := by
  have hfields : ∀ f ∈ l.fields, ∀ a ∈ f.attributes, a.Excused l.pool :=
    forall_of_forall₂ h.fields fun _ _ hf a ha => .inl (hf.attributes a ha).1
  have hmethods : ∀ m ∈ l.methods, ∀ a ∈ m.attributes,
      a.Excused l.pool ∧ ∀ x ∈ a.inner, x.Excused l.pool := by
    refine forall_of_forall₂ h.methods fun _ _ hm => ?_
    obtain ⟨shown, hshows, -⟩ := hm.attributes
    exact forall_of_forall₂ hshows fun _ _ => (·.excused)
  obtain ⟨shown, hshows, -⟩ := h.attributes
  have hattributes : ∀ a ∈ l.attributes, a.Excused l.pool :=
    forall_of_forall₂ hshows fun _ _ => (·.excused)
  simp only [outer, inner, List.mem_append, List.mem_flatMap, List.mem_map]
  rintro a ((⟨m, hm | hm, o, ho, rfl⟩ | ha) | ⟨m, hm, o, ho, ha⟩)
  · exact hfields m hm o ho
  · exact (hmethods m hm o ho).1
  · exact hattributes a ha
  · exact (hmethods m hm o ho).2 a ha

namespace ClassImage

/-- **Which lengths the reader honours.**  Bytes are read as a class exactly if a layout with these
bytes depicts it. In such a layout every attribute takes as many bytes as it declares, except for
bodies, line tables, exceptions and source files, of which nothing is asked. A reader that skips
every attribute by its length finds the same members and attributes exactly if all of them are
exact; the same goes for the attributes inside of each body. -/
theorem ofBytes_by_structure (input : List UInt8) (image : ClassImage) :
    (ofBytes input = .ok image ↔ ∃ l : ClassLayout, l.bytes = input ∧ l.Depicts image) ∧
    ∀ l : ClassLayout, l.bytes = input → l.Depicts image →
      (∀ a ∈ l.outer ++ l.inner, a.Exact ∨
        ∃ kind ∈ structuredKinds, image.pool.utf8At a.name = .ok kind) ∧
      (RawClass.ofBytes input = .ok l.raw ↔ ∀ a ∈ l.outer, a.Exact) ∧
      ∀ m ∈ l.methods, ∀ a ∈ m.attributes,
        (Reader.counted RawAttribute.read (encodeCounted AttributeLayout.bytes a.inner) =
          .ok (a.inner.map AttributeLayout.raw, []) ↔ ∀ x ∈ a.inner, x.Exact) := by
  refine ⟨ofBytes_eq_ok_iff, ?_⟩
  rintro l rfl hl
  refine ⟨?_, l.ofBytes_bytes, fun m _ a _ => ?_⟩
  · rw [hl.pool]
    exact hl.excused
  · have hinner := follows_attribute.counted a.inner_le [] []
    rw [List.append_nil] at hinner
    rw [hinner, and_iff_left rfl]

/-! ### Lengths that are not honoured -/

/-- Names for a class, its method and its attributes. -/
def overstatedConstants : List Constant :=
  [.utf8 "a", .classRef 1, .utf8 "()V", .utf8 "Code", .utf8 "LineNumberTable", .utf8 "Exceptions",
    .utf8 "SourceFile"]

theorem storable_overstatedConstants : ∀ c ∈ overstatedConstants, c.Storable := by
  simp only [overstatedConstants, List.forall_mem_cons, Constant.Storable, List.not_mem_nil,
    false_implies, implies_true, and_true, true_and]
  decide

/-- A body that returns at once, with its line table. -/
def overstatedBody : OuterLayout where
  name := 4
  declared := 100
  content := [0, 0, 0, 0, 0, 0, 0, 1, 0xb1, 0, 0, 0, 1, 0, 5, 0, 0, 0, 100, 0, 1, 0, 0, 0, 7]
  inner := [⟨5, 100, [0, 1, 0, 0, 0, 7]⟩]
  inner_le := by decide

/-- A method with this body and a declared exception. -/
def overstatedMethod : MemberLayout where
  access := 9
  name := 1
  descriptor := 3
  attributes := [overstatedBody, ⟨⟨6, 100, [0, 1, 0, 2]⟩, [], by decide⟩]
  attributes_le := by decide

/-- A class in which every attribute declares a hundred bytes and has fewer. -/
def overstated : ClassLayout where
  version := ⟨49, 0⟩
  pool := overstatedConstants.foldl ConstantPool.append .empty
  poolBytes := _
  reads_pool := ConstantPool.reads_pool_of_constants storable_overstatedConstants (by decide)
  access := 33
  thisClass := 2
  superClass := 2
  interfaces := []
  interfaces_le := by decide
  fields := []
  fields_le := by decide
  methods := [overstatedMethod]
  methods_le := by decide
  attributes := [⟨7, 100, [0, 1]⟩]
  attributes_le := by decide

/-- What the reader makes of it. -/
def overstatedImage : ClassImage where
  version := ⟨49, 0⟩
  pool := overstatedConstants.foldl ConstantPool.append .empty
  access := ⟨33⟩
  name := "a"
  superName := "a"
  interfaces := []
  fields := []
  methods := [⟨⟨9⟩, "a", "()V", some ⟨0, 0, #[0xb1], [], [⟨0, 7⟩]⟩, ["a"]⟩]
  sourceFile := some "a"
  sourceDebug := none

theorem depicts_overstated : overstated.Depicts overstatedImage where
  version := rfl
  pool := rfl
  access := rfl
  name := rfl
  superName := rfl
  interfaces := .nil
  fields := .nil
  methods := by
    have hlines : BodyAttributeShows overstated.pool ⟨5, 100, [0, 1, 0, 0, 0, 7]⟩ [⟨0, 7⟩] :=
      .lines rfl (by decide) rfl
    have hcode : MethodAttributeShows overstated.pool overstatedBody
        (some ⟨0, 0, #[0xb1], [], [⟨0, 7⟩]⟩, []) :=
      .code rfl ⟨rfl, by decide, by decide, [[⟨0, 7⟩]], .cons hlines .nil, rfl⟩
    have hexceptions : MethodAttributeShows overstated.pool
        ⟨⟨6, 100, encodeCounted word16 [2]⟩, [], by decide⟩ (none, ["a"]) :=
      .exceptions rfl rfl (by decide) rfl (.cons rfl .nil)
    exact .cons ⟨rfl, rfl, rfl, _, .cons hcode (.cons hexceptions .nil), rfl, rfl⟩ .nil
  attributes := ⟨_, .cons (.sourceFile rfl (rfl : _ = word16 1) rfl) .nil, rfl, rfl⟩

/-- **Declared lengths are not honoured.**  The class is read although none of its attributes, one
of each kind that is read by its structure, takes as many bytes as it declares. A reader that goes
by lengths runs out of bytes. -/
theorem ofBytes_overstated :
    ofBytes overstated.bytes = .ok overstatedImage ∧ overstated.Depicts overstatedImage ∧
      (∀ a ∈ overstated.outer ++ overstated.inner, ¬a.Exact) ∧
      (overstated.outer ++ overstated.inner).map (fun a => overstated.pool.utf8At a.name) =
        [.ok "Code", .ok "Exceptions", .ok "SourceFile", .ok "LineNumberTable"] ∧
      (RawClass.ofBytes overstated.bytes).toOption.isNone = true :=
  ⟨ofBytes_eq_ok_iff.2 ⟨overstated, rfl, depicts_overstated⟩, depicts_overstated, by decide, rfl,
    by decide +kernel⟩

end ClassImage

end ClassForge
