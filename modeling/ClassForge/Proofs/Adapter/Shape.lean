import ClassForge.Proofs.Adapter.Composition

/-!
# The shape of adapters

What a reader finds in the class file of an adapter, besides the code of its methods.

* `AdapterPlan.Shape` — names, fields, heads of methods, source file and debug text;
* `isBaseName_fileName` — **PROVED**: the source file is what follows the last separator;
* `represents_fieldsOnly` — **PROVED**: the texts of the class before its methods;
* `exists_draft_of_build` — **PROVED**: the methods of a built class are those of the plan with the
  bodies that their code emitted;
* `build_shape` — **PROVED**: so every built class has the shape of its plan, if its debug text has
  less than 2^32 bytes;
* `ofBytes_of_overflow` — **PROVED**: a class whose debug text has as many cannot be read.
-/

namespace ClassForge

open ConstantPool Emitter

/-! ### Heads of methods -/

/-- What a class file tells of a method besides its code. -/
structure MethodHead where
  access : AccessFlags
  name : String
  descriptor : String
  /-- Internal names of the declared exceptions. -/
  exceptions : List String
deriving DecidableEq

/-- The method without its code. -/
def MethodImage.head (m : MethodImage) : MethodHead :=
  ⟨m.access, m.name, m.descriptor, m.exceptions⟩

/-- The method without its code. -/
def Member.head (m : Member) : MethodHead := ⟨m.access, m.name, m.type.descriptor, m.exceptions⟩

theorem Member.Made.head_eq {m : Member} {pool : ConstantPool} {g : MethodImage}
    (h : m.Made pool g) : g.head = m.head := by
  rw [MethodImage.head, h.access, h.name, h.descriptor, h.exceptions]
  rfl

theorem Member.heads_of_made {ms : List Member} {gs : List MethodImage} {pool : ConstantPool}
    (h : List.Forall₂ (fun m g => m.Made pool g) ms gs) :
    gs.map MethodImage.head = ms.map Member.head := by
  induction h with
  | nil => rfl
  | cons hmade _ ih => rw [List.map_cons, List.map_cons, hmade.head_eq, ih]

/-- The tables of methods are as long as their counts can tell. -/
theorem Member.sized_of_made {ms : List Member} {gs : List MethodImage} {pool : ConstantPool}
    (h : List.Forall₂ (fun m g => m.Made pool g) ms gs)
    (hms : ∀ m ∈ ms, Composes m.code ∧ m.exceptions.length ≤ 1) : ∀ g ∈ gs, g.Sized := by
  induction h with
  | nil => exact List.forall_mem_nil _
  | @cons m g ms gs hmade _ ih =>
    obtain ⟨⟨hcode, hcount⟩, hms⟩ := List.forall_mem_cons.1 hms
    refine List.forall_mem_cons.2 ⟨⟨fun body hbody => ?_, ?_⟩, ih hms⟩
    · obtain ⟨body', hbody', hemitted⟩ := hmade.body
      rw [hbody, Option.some.injEq] at hbody'
      exact hbody' ▸ hemitted.sized hcode
    · rw [hmade.exceptions]
      exact Nat.le_trans hcount (by decide)

/-! ### File names -/

/-- The base name of a path: what follows its last slash or backslash, all of it if there is
none. -/
def IsBaseName (path base : String) : Prop :=
  ∃ directory, path = directory ++ base ∧ (∀ c ∈ base.toList, c ≠ '/' ∧ c ≠ '\\') ∧
    (directory = "" ∨ ∃ outer, directory = outer ++ "/" ∨ directory = outer ++ "\\")

theorem isBaseName_fileName (r : Rule) : IsBaseName r.file r.fileName := by
  unfold Rule.fileName
  generalize hq : (fun c : Char => decide (c ≠ '/' ∧ c ≠ '\\')) = q
  generalize hcs : r.file.toList.reverse = cs
  have hsplit : r.file.toList = (cs.dropWhile q).reverse ++ (cs.takeWhile q).reverse := by
    rw [← List.reverse_append, List.takeWhile_append_dropWhile, ← hcs, List.reverse_reverse]
  refine ⟨String.ofList (cs.dropWhile q).reverse, ?_, fun c hc => ?_, ?_⟩
  · rw [← String.ofList_append, ← hsplit, String.ofList_toList]
  · rw [String.toList_ofList, List.mem_reverse] at hc
    have hcq := List.mem_takeWhile_imp hc
    rw [← hq] at hcq
    exact of_decide_eq_true hcq
  · cases hdrop : cs.dropWhile q with
    | nil => exact .inl rfl
    | cons c rest =>
      -- The first character that was not taken is the separator.
      have hnot : q c = false := by
        have hhead := List.head?_dropWhile_not q cs
        rw [hdrop] at hhead
        simpa using hhead
      right
      refine ⟨String.ofList rest.reverse, ?_⟩
      rw [← hq, decide_eq_false_iff_not, not_and_or, not_not, not_not] at hnot
      rw [List.reverse_cons, String.ofList_append]
      rcases hnot with rfl | rfl
      · exact .inl rfl
      · exact .inr rfl

/-- A path has one base name. -/
theorem IsBaseName.eq_fileName {r : Rule} {base : String} (h : IsBaseName r.file base) :
    base = r.fileName := by
  obtain ⟨directory, hfile, hbase, hdirectory⟩ := h
  have hstop : directory.toList.reverse.takeWhile (fun c => decide (c ≠ '/' ∧ c ≠ '\\')) = [] := by
    rcases hdirectory with rfl | ⟨outer, rfl | rfl⟩
    · rfl
    · rw [String.toList_append, List.reverse_append]
      rfl
    · rw [String.toList_append, List.reverse_append]
      rfl
  unfold Rule.fileName
  rw [hfile, String.toList_append, List.reverse_append,
    List.takeWhile_append_of_pos fun c hc => decide_eq_true (hbase c (List.mem_reverse.1 hc)),
    hstop, List.append_nil, List.reverse_reverse, String.ofList_toList]

namespace AdapterPlan

variable {p : AdapterPlan} {bytes : List UInt8}

/-! ### The shape of a class -/

/-- The field of a stored binding: it has the declared type, or that of all objects if the policy
hides the declared one. -/
def bindingField (p : AdapterPlan) (b : Binding) : FieldImage :=
  ⟨.privateFlag, b.fieldName,
    if p.rule.policy.hides b.type then "Ljava/lang/Object;" else b.type.descriptor⟩

/-- The methods that the engine calls. -/
def contractHeads (p : AdapterPlan) : List MethodHead :=
  [⟨.publicFlag, "<init>", "(" ++ p.names.ruleType.descriptor ++ ")V", []⟩,
    ⟨.publicFlag, "execute", "(Ljava/lang/Object;[Ljava/lang/Object;)V",
      [p.names.executeException]⟩,
    ⟨.publicFlag, "setBinding", "(Ljava/lang/String;Ljava/lang/Object;)V", []⟩,
    ⟨.publicFlag, "getBinding", "(Ljava/lang/String;)Ljava/lang/Object;", []⟩,
    ⟨.publicFlag, "getName", "()Ljava/lang/String;", []⟩,
    ⟨.publicFlag, "getAccessibleField", "(Ljava/lang/Object;I)Ljava/lang/Object;", []⟩,
    ⟨.publicFlag, "setAccessibleField", "(Ljava/lang/Object;Ljava/lang/Object;I)V", []⟩,
    ⟨.publicFlag, "invokeAccessibleMethod",
      "(Ljava/lang/Object;[Ljava/lang/Object;I)Ljava/lang/Object;", []⟩]

/-- The methods that run the rule. -/
def strategyHeads (p : AdapterPlan) : List MethodHead :=
  match p.strategy with
  | .compiled => [⟨.privateFlag, "execute0", "()V", [p.names.executeException]⟩]
  | .interpreted =>
    [⟨.privateFlag, "execute0", "()V", [p.names.executeException]⟩,
      ⟨.privateFlag, "bind", "()V", [p.names.executeException]⟩,
      ⟨.privateFlag, "test", "()Z", [p.names.executeException]⟩,
      ⟨.privateFlag, "fire", "()V", [p.names.executeException]⟩]

/-- **The shape of an adapter.** -/
structure Shape (p : AdapterPlan) (c : ClassImage) : Prop where
  name : c.name = p.className
  superName : c.superName = p.helper.name
  interfaces : c.interfaces = [p.names.helperAdapter]
  fields : c.fields =
    (p.rule.bindings.filter fun b => !b.isAlias && !b.isHelper).map p.bindingField ++
      [⟨.privateFlag, "rule", p.names.ruleType.descriptor⟩]
  methods : c.methods.map MethodImage.head = p.contractHeads ++ p.strategyHeads
  sourceFile : ∃ base, c.sourceFile = some base ∧ IsBaseName p.rule.file base
  sourceDebug : c.sourceDebug = some ("// compiled from: " ++ p.rule.file ++
    "\n// generated by " ++ p.names.generator ++ "\n")

/-! ### The class before its methods -/

theorem bindingField_eq (b : Binding) :
    p.bindingField b = ⟨.privateFlag, b.fieldName, (p.rule.fieldType b).descriptor⟩ := by
  unfold bindingField Rule.fieldType
  cases p.rule.policy.hides b.type with
  | false => rfl
  | true =>
    have hobject : JavaType.anyObject.descriptor = "Ljava/lang/Object;" := by decide +kernel
    rw [if_pos rfl, if_pos rfl, hobject]

/-- The texts of the class without its methods. -/
def outline (p : AdapterPlan) : ClassOutline where
  name := p.className
  superName := p.helper.name
  interfaces := [p.names.helperAdapter]
  fields := (p.rule.bindings.filter Binding.isStored).map p.bindingField ++
    [⟨.privateFlag, Adapter.ruleField, p.names.ruleType.descriptor⟩]
  sourceFile := some p.rule.fileName
  sourceDebug := some p.debugText

theorem represents_addBindingFields (bs : List Binding) :
    ∀ {d : ClassDraft} {o : ClassOutline}, d.Represents o →
      (addBindingFields d (bs.map p.planned)).Represents
        { o with fields := o.fields ++ (bs.filter Binding.isStored).map p.bindingField } := by
  induction bs with
  | nil =>
    intro d o h
    show d.Represents { o with fields := o.fields ++ [] }
    rwa [List.append_nil]
  | cons b bs ih =>
    intro d o h
    rw [List.map_cons, addBindingFields]
    cases hstored : b.isStored with
    | true =>
      rw [storage_planned_of_isStored hstored, List.filter_cons_of_pos hstored, List.map_cons,
        bindingField_eq]
      have hrep := ih (h.addField .privateFlag b.fieldName (p.rule.fieldType b))
      rwa [List.append_assoc] at hrep
    | false =>
      rw [List.filter_cons_of_neg (by rw [hstored]; nofun)]
      rcases storage_planned_of_not_isStored (p := p) hstored with hstorage | hstorage
      · rw [hstorage]
        exact ih h
      · rw [hstorage]
        exact ih h

/-- **The class before its methods has the texts of the plan.** -/
theorem represents_fieldsOnly (p : AdapterPlan) : p.fieldsOnly.Represents p.outline := by
  have hheader := ((ClassDraft.represents_new p.options.version
    (AccessFlags.publicFlag.union .superFlag) p.className p.helper.name
    [p.names.helperAdapter]).setSourceFile p.rule.fileName).setSourceDebug p.debugText
  have hfields := represents_addBindingFields (p := p) p.rule.bindings hheader
  exact hfields.addField .privateFlag Adapter.ruleField p.names.ruleType

/-! ### Methods -/

theorem descriptor_constructorType (names : EngineNames) :
    names.constructorType.descriptor = "(" ++ names.ruleType.descriptor ++ ")V" := by
  refine String.toList_inj.1 ?_
  simp [EngineNames.constructorType, MethodType.descriptor, MethodType.descriptorChars,
    JavaType.descriptor, JavaType.descriptorChars]

theorem heads_sharedMembers (chosen : SuperConstructor) :
    (p.sharedMembers chosen).map Member.head = p.contractHeads := by
  have hexecute : MethodType.descriptor ⟨[.anyObject, .array .anyObject], .void⟩ =
      "(Ljava/lang/Object;[Ljava/lang/Object;)V" := by decide +kernel
  have hset : MethodType.descriptor ⟨[.text, .anyObject], .void⟩ =
      "(Ljava/lang/String;Ljava/lang/Object;)V" := by decide +kernel
  have hget : MethodType.descriptor ⟨[.text], .anyObject⟩ =
      "(Ljava/lang/String;)Ljava/lang/Object;" := by decide +kernel
  have hname : (MethodType.returning .text).descriptor = "()Ljava/lang/String;" := by
    decide +kernel
  have hgetField : MethodType.descriptor ⟨[.anyObject, .int], .anyObject⟩ =
      "(Ljava/lang/Object;I)Ljava/lang/Object;" := by decide +kernel
  have hsetField : MethodType.descriptor ⟨[.anyObject, .anyObject, .int], .void⟩ =
      "(Ljava/lang/Object;Ljava/lang/Object;I)V" := by decide +kernel
  have hinvoke : MethodType.descriptor ⟨[.anyObject, .array .anyObject, .int], .anyObject⟩ =
      "(Ljava/lang/Object;[Ljava/lang/Object;I)Ljava/lang/Object;" := by decide +kernel
  simp only [sharedMembers, Adapter.forwarded, contractHeads, publicMember, List.map_cons,
    List.map_nil, List.cons_append, List.nil_append, Member.head, descriptor_constructorType,
    hexecute, hset, hget, hname, hgetField, hsetField, hinvoke]

theorem heads_strategyMembers (p : AdapterPlan) :
    p.strategyMembers.map Member.head = p.strategyHeads := by
  have haction : MethodType.action.descriptor = "()V" := by decide
  have htest : (MethodType.returning .boolean).descriptor = "()Z" := by decide
  unfold strategyMembers strategyHeads
  cases p.strategy with
  | compiled => simp only [privateMember, List.map_cons, List.map_nil, Member.head, haction]
  | interpreted =>
    have hvoid : (MethodType.returning .void).descriptor = "()V" := haction
    simp only [clauseMethods, privateMember, ClauseMethod.ret, List.map_cons, List.map_nil,
      Member.head, haction, hvoid, htest, if_true, Bool.false_eq_true, if_false]

/-- A method declares at most one exception. -/
theorem exceptions_members {chosen : SuperConstructor} :
    ∀ m ∈ p.members chosen, m.exceptions.length ≤ 1 := by
  have hheads : ∀ h ∈ p.contractHeads ++ p.strategyHeads, h.exceptions.length ≤ 1 := by
    unfold contractHeads strategyHeads
    cases p.strategy <;> simp
  intro m hm
  refine hheads m.head ?_
  rw [← heads_sharedMembers chosen, ← heads_strategyMembers, ← List.map_append]
  exact List.mem_map_of_mem hm

/-! ### Reading a built class -/

/-- **A built class stands for the texts of its plan**, and its methods have the bodies that their
code emitted. -/
theorem exists_draft_of_build (hbuild : p.build = .ok (.ok bytes))
    (hclauses : p.strategy = .compiled → p.ClausesConfined) :
    ∃ (chosen : SuperConstructor) (d : ClassDraft) (gs : List MethodImage),
      p.draft = .ok (.ok (), d) ∧ d.encode = .ok bytes ∧
      d.Represents { p.outline with methods := gs } ∧
      List.Forall₂ (fun m g => m.Made d.pool g) (p.members chosen) gs ∧ ∀ g ∈ gs, g.Sized := by
  obtain ⟨d, hrun, hbytes⟩ := build_eq_ok.1 hbuild
  obtain ⟨chosen, hchosen⟩ := exists_superConstructor hrun
  have hdraft : p.draft = .ok (.ok (), d) := hrun
  rw [addMethods_eq_addAll hchosen] at hrun
  have hcodes : ∀ m ∈ p.members chosen, Composes m.code := composes_members hclauses
  obtain ⟨gs, hrep, hmade, -⟩ := exists_made_addAll
    (fun m hm => Member.keepsPool_of_composes (hcodes m hm)) p.represents_fieldsOnly hrun
  exact ⟨chosen, d, gs, hdraft, hbytes, hrep, hmade,
    Member.sized_of_made hmade fun m hm => ⟨hcodes m hm, exceptions_members m hm⟩⟩

/-- **A built class can be read** if its debug text is not too long. -/
theorem exists_ofBytes_of_draft {d : ClassDraft} {gs : List MethodImage}
    (hrep : d.Represents { p.outline with methods := gs }) (hbytes : d.encode = .ok bytes)
    (hsized : ∀ g ∈ gs, g.Sized) (hdebug : DebugSized p.debugText) :
    ∃ pool, ClassImage.ofBytes bytes =
        .ok (.ofOutline d.version d.access pool { p.outline with methods := gs }) ∧
      Extends d.pool pool := by
  have houtline : ClassImage.OutlineSized { p.outline with methods := gs } := by
    refine ⟨hsized, fun text htext => ?_⟩
    cases htext
    exact hdebug
  obtain ⟨pool, hslots, -, hread⟩ := ClassImage.exists_ofBytes_encode hrep houtline hbytes
  exact ⟨pool, hread, extends_of_slots_eq hslots.symm⟩

/-- **A built class cannot be read** if its debug text has 2^32 bytes. -/
theorem ofBytes_of_overflow (hbuild : p.build = .ok (.ok bytes))
    (hclauses : p.strategy = .compiled → p.ClausesConfined)
    (hlength : (ModifiedUtf8.encode p.debugText).length = 2 ^ 32) :
    ClassImage.ofBytes bytes = .error (.trailing (2 ^ 32)) := by
  obtain ⟨chosen, d, gs, -, hbytes, hrep, -, hsized⟩ := exists_draft_of_build hbuild hclauses
  have hne : ModifiedUtf8.encode p.debugText ≠ [] := by
    intro hnil
    rw [hnil] at hlength
    cases hlength
  have hzero : (ModifiedUtf8.encode p.debugText).length % 2 ^ 32 = 0 := by
    rw [hlength, Nat.mod_self]
  rw [← hlength]
  exact ClassImage.ofBytes_encode_of_overflow hrep hsized rfl hne hzero hbytes

/-! ### Debug texts that are too long -/

/-- The plan for a rule of another file. -/
def withFile (p : AdapterPlan) (file : String) : AdapterPlan :=
  { p with rule := { p.rule with file } }

theorem Fits.withFile (h : p.Fits) (file : String) : (p.withFile file).Fits := ⟨h.names, h.fields⟩

theorem Feasible.withFile (h : p.Feasible) {file : String}
    (hfile : ShortText (p.withFile file).rule.fileName) : (p.withFile file).Feasible where
  constructs := h.constructs
  texts := by
    intro text htext
    have hcases : text = (p.withFile file).rule.fileName ∨ text ∈ p.texts := by
      simp only [AdapterPlan.texts, List.mem_cons] at htext ⊢
      rcases htext with h | h | h | h
      · exact .inr (.inl h)
      · exact .inr (.inr (.inl h))
      · exact .inl h
      · exact .inr (.inr (.inr (.inr h)))
    rcases hcases with rfl | hmem
    · exact hfile
    · exact h.texts text hmem
  bindings := h.bindings
  count := h.count

/-- The debug text grows with the name of the file. -/
theorem length_debugText_withFile (p : AdapterPlan) (file : String) :
    (ModifiedUtf8.encode (p.withFile file).debugText).length =
      (ModifiedUtf8.encode file).length +
        (ModifiedUtf8.encode (p.withFile "").debugText).length := by
  have htext (file : String) : (p.withFile file).debugText =
      "// compiled from: " ++ file ++ "\n// generated by " ++ p.names.generator ++ "\n" := rfl
  simp only [htext, ModifiedUtf8.length_encode_append]
  have hempty : (ModifiedUtf8.encode "").length = 0 := rfl
  omega

/-- **Some file makes the debug text 2^32 bytes long.** -/
theorem exists_overflowing_file
    (hlength : (ModifiedUtf8.encode (p.withFile "").debugText).length ≤ 1000) :
    ∃ file, (ModifiedUtf8.encode (p.withFile file).debugText).length = 2 ^ 32 ∧
      (p.withFile file).rule.fileName = "a" := by
  obtain ⟨n, hn⟩ : ∃ n, n + (2 + (ModifiedUtf8.encode (p.withFile "").debugText).length) = 2 ^ 32 :=
    ⟨2 ^ 32 - (2 + (ModifiedUtf8.encode (p.withFile "").debugText).length), by omega⟩
  refine ⟨String.ofList (List.replicate n 'x') ++ "/a", ?_, ?_⟩
  · rw [length_debugText_withFile, ModifiedUtf8.length_encode_append,
      ModifiedUtf8.length_encode_replicate, Nat.add_assoc]
    exact hn
  · refine (IsBaseName.eq_fileName (r := (p.withFile _).rule) ?_).symm
    refine ⟨String.ofList (List.replicate n 'x') ++ "/", ?_, by simp, .inr ⟨_, .inl rfl⟩⟩
    rw [String.append_assoc]
    rfl

/-- The sample can be built with a debug text that cannot be read. -/
theorem exists_overflowing_build :
    ∃ file bytes, ((samplePlan .interpreted).withFile file).build = .ok (.ok bytes) ∧
      (ModifiedUtf8.encode ((samplePlan .interpreted).withFile file).debugText).length = 2 ^ 32 ∧
      ClassImage.ofBytes bytes = .error (.trailing (2 ^ 32)) := by
  obtain ⟨file, hlength, hfile⟩ := exists_overflowing_file (p := samplePlan .interpreted)
    (by decide +kernel)
  have hfeasible : ((samplePlan .interpreted).withFile file).Feasible :=
    (feasible_samplePlan .interpreted).withFile (by rw [hfile]; decide)
  obtain ⟨bytes, hbuild⟩ := hfeasible.exists_build ((fits_samplePlan .interpreted).withFile file)
    (builds_addStrategy_interpreted rfl) (by decide) (by decide)
  exact ⟨file, bytes, hbuild, hlength, ofBytes_of_overflow hbuild nofun hlength⟩

/-! ### The shape of every adapter -/

/-- **Every built class has the shape of its plan.**  If a build gives bytes, they can be read: the
class has the given name, the helper as its superclass and the adapter interface; a private field
for each binding that is neither alias nor helper, then one for the rule; the methods of the
contract, then those of the strategy; and it tells the source file and where it comes from.  Clauses
that are compiled have to use the body under construction only through its operations. -/
theorem build_shape (hbuild : p.build = .ok (.ok bytes)) (hdebug : DebugSized p.debugText)
    (hclauses : p.strategy = .compiled → p.ClausesConfined) :
    ∃ c, ClassImage.ofBytes bytes = .ok c ∧ p.Shape c := by
  obtain ⟨chosen, d, gs, -, hbytes, hrep, hmade, hsized⟩ := exists_draft_of_build hbuild hclauses
  obtain ⟨pool, hread, -⟩ := exists_ofBytes_of_draft hrep hbytes hsized hdebug
  refine ⟨_, hread, rfl, rfl, rfl, rfl, ?_, ⟨_, rfl, isBaseName_fileName p.rule⟩, rfl⟩
  show gs.map MethodImage.head = _
  rw [Member.heads_of_made hmade, members, List.map_append, heads_sharedMembers,
    heads_strategyMembers]

/-- The fields and the methods of the sample, for either strategy. -/
theorem build_shape_samplePlan :
    (∃ bytes c, (samplePlan .interpreted).build = .ok (.ok bytes) ∧
      ClassImage.ofBytes bytes = .ok c ∧ (samplePlan .interpreted).Shape c ∧
      c.methods.map (·.name) = ["<init>", "execute", "setBinding", "getBinding", "getName",
        "getAccessibleField", "setAccessibleField", "invokeAccessibleMethod", "execute0", "bind",
        "test", "fire"]) ∧
    ∃ bytes c, (samplePlan .compiled).build = .ok (.ok bytes) ∧
      ClassImage.ofBytes bytes = .ok c ∧ (samplePlan .compiled).Shape c ∧
      c.fields.map (fun f => (f.name, f.descriptor)) = [("$0", "Ldemo/Subject;"), ("count", "J"),
        ("counts", "[I"), ("secret", "Ljava/lang/Object;"),
        ("rule", "Lorg/jboss/byteman/rule/Rule;")] ∧
      c.sourceFile = some "sample.btm" := by
  constructor
  · obtain ⟨bytes, hbuild⟩ := (feasible_samplePlan .interpreted).exists_build
      (fits_samplePlan .interpreted) (builds_addStrategy_interpreted rfl) (by decide) (by decide)
    obtain ⟨c, hread, hshape⟩ := build_shape hbuild (debugSized_samplePlan _) nofun
    refine ⟨bytes, c, hbuild, hread, hshape, ?_⟩
    have hnames := congrArg (List.map MethodHead.name) hshape.methods
    rw [List.map_map] at hnames
    exact hnames
  · obtain ⟨bytes, hbuild⟩ := (feasible_samplePlan .compiled).exists_build
      (fits_samplePlan .compiled) (builds_addStrategy_compiled rfl rfl rfl rfl) (by decide)
      (by decide)
    obtain ⟨c, hread, hshape⟩ := build_shape hbuild (debugSized_samplePlan _)
      fun _ => clausesConfined_samplePlan _
    refine ⟨bytes, c, hbuild, hread, hshape, ?_, ?_⟩
    · rw [hshape.fields]
      decide +kernel
    · obtain ⟨base, hfile, hbase⟩ := hshape.sourceFile
      rw [hfile, hbase.eq_fileName]
      decide +kernel

/-- The sample for another class of rules. -/
def renamedPlan : AdapterPlan :=
  { samplePlan .interpreted with options := { names := { rule := "a/Rule" } } }

theorem fits_renamedPlan : renamedPlan.Fits :=
  fits_of_valueTypes (by decide) (by decide +kernel)

theorem feasible_renamedPlan : renamedPlan.Feasible where
  constructs := ⟨.plain, rfl⟩
  texts := by decide +kernel
  bindings := by decide +kernel
  count := by decide

theorem debugSized_renamedPlan : DebugSized renamedPlan.debugText := by
  unfold DebugSized
  decide +kernel

/-- **Two limits of the shape.**  A class whose debug text has 2^32 bytes is built and cannot be
read. And the descriptor of the constructor is not fixed: it follows the engine's class of rules. -/
theorem build_misshapen :
    (∃ file bytes, ((samplePlan .interpreted).withFile file).build = .ok (.ok bytes) ∧
      (ModifiedUtf8.encode ((samplePlan .interpreted).withFile file).debugText).length = 2 ^ 32 ∧
      ClassImage.ofBytes bytes = .error (.trailing (2 ^ 32))) ∧
    ∃ bytes c, renamedPlan.build = .ok (.ok bytes) ∧ ClassImage.ofBytes bytes = .ok c ∧
      (c.methods.map MethodImage.head).head? = some ⟨.publicFlag, "<init>", "(La/Rule;)V", []⟩ := by
  refine ⟨exists_overflowing_build, ?_⟩
  obtain ⟨bytes, hbuild⟩ := feasible_renamedPlan.exists_build fits_renamedPlan
    (builds_addStrategy_interpreted rfl) (by decide) (by decide)
  obtain ⟨chosen, d, gs, -, hbytes, hrep, hmade, hsized⟩ := exists_draft_of_build hbuild nofun
  obtain ⟨pool, hread, -⟩ := exists_ofBytes_of_draft hrep hbytes hsized debugSized_renamedPlan
  refine ⟨bytes, _, hbuild, hread, ?_⟩
  show (gs.map MethodImage.head).head? = _
  rw [Member.heads_of_made hmade, members, List.map_append, heads_sharedMembers]
  show some _ = some _
  decide +kernel

end AdapterPlan

end ClassForge
