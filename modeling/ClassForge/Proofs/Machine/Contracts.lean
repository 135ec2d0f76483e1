import ClassForge.Proofs.Machine.Literals

/-!
# What emitted code does

Contracts of emitted code: `Machine.Carries M x s s'` says that the code which `x` emits leads the
machine from one frame to another, wherever in a method it stands, and `Machine.Returns` that it
ends the method.

* one rule for each action of an emitter, read off its instruction;
* `Carries.seq` — **PROVED**: code in sequence;
* `Carries.skip`, `Carries.take`, `Returns.take` — **PROVED**: code under a condition;
* `Carries.fork_next`, `Carries.fork_taken` — **PROVED**: code with two paths.
-/

namespace ClassForge

open ConstantPool Instruction Emitter

namespace Machine

variable {σ : Type} {M : Machine σ} {f e e' : Emitter} {i : Instruction}

/-- The machine holds the code of the emitter, with all its branches, and its constants. -/
structure Loads (M : Machine σ) (f : Emitter) : Prop where
  ready : f.Ready
  code : f.assembly.branches.toList.foldlM (Assembly.resolve f.assembly.labels) f.assembly.code =
    .ok M.code
  pool : Grows f.pool M.pool
  clean : M.pool.violation = none

/-- The code that an action emits leads from one frame to another. -/
structure Carries (M : Machine σ) (x : Emit Unit) (s s' : Activation σ) : Prop where
  regular : Regular x
  reaches : ∀ {f e e' : Emitter}, M.Loads f → x e = .ok ((), e') → e.Ready → e'.Precedes f →
    M.Reaches ⟨e.assembly.code.size, s⟩ ⟨e'.assembly.code.size, s'⟩

/-- The code that an action emits ends the method with a result. -/
structure Returns (M : Machine σ) (x : Emit Unit) (s : Activation σ) (value : Option Value)
    (s' : Activation σ) : Prop where
  regular : Regular x
  returns : ∀ {f e e' : Emitter}, M.Loads f → x e = .ok ((), e') → e.Ready → e'.Precedes f →
    ∃ pc, M.Reaches ⟨e.assembly.code.size, s⟩ ⟨pc, s'⟩ ∧ M.returned? ⟨pc, s'⟩ = some value

variable {x y test : Emit Unit} {s s' s'' : Activation σ} {value : Option Value}

/-! ### Sequences -/

theorem Carries.pure (s : Activation σ) : M.Carries (pure ()) s s where
  regular := .pure ()
  reaches _ hrun _ _ := by
    obtain ⟨-, rfl⟩ := Emit.pure_eq_ok.1 hrun
    exact .refl

theorem Carries.checkBalanced (s : Activation σ) : M.Carries checkBalanced s s where
  regular := regular_checkBalanced
  reaches _ hrun _ _ := by
    obtain ⟨-, rfl⟩ := checkBalanced_eq_ok.1 hrun
    exact .refl

/-- **Code in sequence.** -/
theorem Carries.seq (hx : M.Carries x s s') (hy : M.Carries y s' s'') :
    M.Carries (do x; y) s s'' where
  regular := hx.regular.seq hy.regular
  reaches hload hrun hready hpre := by
    obtain ⟨_, e₁, hfirst, hsecond⟩ := Emit.bind_eq_ok.1 hrun
    obtain ⟨hready₁, -⟩ := hx.regular _ _ _ hfirst hready
    obtain ⟨-, hpre₁⟩ := hy.regular _ _ _ hsecond hready₁
    exact (hx.reaches hload hfirst hready (hpre₁.trans hpre)).trans
      (hy.reaches hload hsecond hready₁ hpre)

theorem Carries.seq_returns (hx : M.Carries x s s') (hy : M.Returns y s' value s'') :
    M.Returns (do x; y) s value s'' where
  regular := hx.regular.seq hy.regular
  returns hload hrun hready hpre := by
    obtain ⟨_, e₁, hfirst, hsecond⟩ := Emit.bind_eq_ok.1 hrun
    obtain ⟨hready₁, -⟩ := hx.regular _ _ _ hfirst hready
    obtain ⟨-, hpre₁⟩ := hy.regular _ _ _ hsecond hready₁
    obtain ⟨pc, hreach, hreturn⟩ := hy.returns hload hsecond hready₁ hpre
    exact ⟨pc, (hx.reaches hload hfirst hready (hpre₁.trans hpre)).trans hreach, hreturn⟩

/-- What comes after the end of a method does not matter. -/
theorem Returns.seq (hx : M.Returns x s value s') (hy : Regular y) :
    M.Returns (do x; y) s value s' where
  regular := hx.regular.seq hy
  returns hload hrun hready hpre := by
    obtain ⟨_, e₁, hfirst, hsecond⟩ := Emit.bind_eq_ok.1 hrun
    obtain ⟨hready₁, -⟩ := hx.regular _ _ _ hfirst hready
    obtain ⟨-, hpre₁⟩ := hy _ _ _ hsecond hready₁
    exact hx.returns hload hfirst hready (hpre₁.trans hpre)

/-! ### Single instructions -/

theorem Loads.at? (h : M.Loads f) (he : e.Ready) (hcode : e'.assembly = e.assembly.append i)
    (hpre : e'.Precedes f) : at? M.code e.assembly.code.size = some i := by
  refine Assembly.at?_of_precedes he.assembly h.ready.assembly ?_ h.code
  rw [← hcode]
  exact hpre.assembly

/-- **The rule of an action that writes one instruction.** -/
theorem Carries.write (hreg : Regular x)
    (h : ∀ e e', x e = .ok ((), e') → e.Ready → Grows e'.pool M.pool → M.pool.violation = none →
      ∃ i, e'.assembly = e.assembly.append i ∧ branch? i.op s.stack = none ∧
        M.operate i s = some s') : M.Carries x s s' where
  regular := hreg
  reaches := by
    intro f e e' hload hrun hready hpre
    obtain ⟨i, hcode, hbranch, hop⟩ :=
      h e e' hrun hready (hpre.pool.trans hload.pool) hload.clean
    refine .single ?_
    simp only [step, hload.at? hready hcode hpre, hbranch, hop, Option.map_some, hcode,
      Assembly.size_append]

theorem Carries.emit {op : Opcode} (hbranch : branch? op s.stack = none)
    (hop : ∀ h : op.operandSize = 0, M.operate (.plain op h) s = some s') :
    M.Carries (emit op) s s' :=
  .write (regular_emit op) fun e e' hrun _ _ _ => by
    obtain ⟨hsize, effect, -, -, -, rfl⟩ := emit_eq_ok.1 hrun
    exact ⟨.plain op hsize, rfl, hbranch, hop hsize⟩

theorem Returns.returnValue {type : JavaType} (h : result? (returnOp type) s.stack = some value) :
    M.Returns (returnValue type) s value s where
  regular := regular_emit _
  returns hload hrun hready hpre := by
    obtain ⟨hsize, effect, -, -, -, rfl⟩ := emit_eq_ok.1 hrun
    refine ⟨_, .refl, ?_⟩
    show (Instruction.at? M.code _).bind _ = _
    rw [hload.at? (i := .plain _ hsize) hready rfl hpre]
    exact h

/-! ### Constants -/

/-- **The rule of a literal.** -/
theorem Carries.of_loadedBy {lit : Literal} (hreg : Regular x) (hx : lit.LoadedBy x)
    (s : Activation σ) : M.Carries x s (lit.push M.platform s) :=
  .write hreg fun e e' hrun hready hpool hclean => by
    obtain ⟨pool, i, hiff, hpushed⟩ := hx e
    obtain ⟨-, rfl⟩ := (hiff e').1 hrun
    obtain ⟨hbranch, hop⟩ := hpushed hready.coherent (hpool.clean hclean) hpool.keeps s
    exact ⟨i, rfl, hbranch, hop⟩

/-- A string literal is an object with that text. -/
theorem Carries.textConst (text : String) {st : List Value} {l : Nat → Option Value} {w : World σ}
    {c : List Call} :
    M.Carries (textConst text) ⟨st, l, w, c⟩
      ⟨.ref (some (M.platform.provide (.text text) w).1) :: st, l,
        (M.platform.provide (.text text) w).2, c⟩ :=
  .of_loadedBy (regular_textConst text) (Literal.loadedBy_textConst text) _

/-- Every form of an integer constant pushes its value. -/
theorem Carries.intConst (n : Int32) (s : Activation σ) :
    M.Carries (intConst n) s (s.push (.int n)) :=
  .of_loadedBy (regular_intConst n) (Literal.loadedBy_intConst n) s

theorem Carries.zeroOf {type : JavaType} (hvoid : type ≠ .void) (s : Activation σ) :
    M.Carries (zeroOf type) s (s.push (.zero type)) := by
  cases type with
  | void => exact absurd rfl hvoid
  | boolean | byte | char | short | int => exact .intConst 0 s
  | long => exact .emit (show branch? .lconst0 s.stack = none from rfl) fun _ => rfl
  | float => exact .emit (show branch? .fconst0 s.stack = none from rfl) fun _ => rfl
  | double => exact .emit (show branch? .dconst0 s.stack = none from rfl) fun _ => rfl
  | object | array => exact .emit (show branch? .aconstNull s.stack = none from rfl) fun _ => rfl

/-! ### Local variables -/

theorem assembly_of_loadRef {slot : Nat} {op : Opcode} {u : Unit} (hslot : slot ≤ 3)
    (hbyte : Opcode.aload0.byte + UInt8.ofNat slot = op.byte) (hsize : op.operandSize = 0)
    (h : loadRef slot e = .ok (u, e')) : e'.assembly = e.assembly.append (.plain op hsize) := by
  unfold loadRef load accessLocal at h
  rw [if_pos hslot] at h
  obtain ⟨_, e₂, haccess, hpush⟩ := Emit.bind_eq_ok.1 h
  obtain ⟨_, e₁, hnote, hwrite⟩ := Emit.bind_eq_ok.1 haccess
  obtain ⟨-, rfl⟩ := noteLocal_eq_ok.1 hnote
  obtain rfl := assemble_eq_ok.1 hwrite
  obtain ⟨-, rfl⟩ := push_eq_ok.1 hpush
  rw [← Assembly.writeOp_eq]
  exact congrArg e.assembly.writeByte hbyte

theorem Carries.loadRef {slot : Nat} {r : Option Ref} (hslot : slot ≤ 2)
    (h : s.locals slot = some (.ref r)) : M.Carries (loadRef slot) s (s.push (.ref r)) := by
  have hrule : ∀ {op : Opcode}, Opcode.aload0.byte + UInt8.ofNat slot = op.byte →
      branch? op s.stack = none →
      (hsize : op.operandSize = 0) → M.operate (.plain op hsize) s = s.pushLocal slot →
      M.Carries (Emitter.loadRef slot) s (s.push (.ref r)) := by
    intro op hbyte hbranch hsize hop
    refine .write (regular_load _ slot) fun e e' hrun _ _ _ =>
      ⟨_, assembly_of_loadRef (by omega) hbyte hsize hrun, hbranch, hop.trans ?_⟩
    unfold Activation.pushLocal
    rw [h]
  obtain rfl | rfl | rfl : slot = 0 ∨ slot = 1 ∨ slot = 2 := by omega
  · exact hrule (show _ = Opcode.aload0.byte from rfl) rfl rfl rfl
  · exact hrule (show _ = Opcode.aload1.byte from rfl) rfl rfl rfl
  · exact hrule (show _ = Opcode.aload2.byte from rfl) rfl rfl rfl

/-! ### Members -/

section Members

variable {p : ConstantPool} {owner name : String}

theorem member?_fieldRef {descriptor : String} (hcoh : p.Coherent)
    (hpool : Grows (p.fieldRef owner name descriptor).2 M.pool) (hclean : M.pool.violation = none) :
    Activation.member? M.pool .field (p.fieldRef owner name descriptor).1 =
      some ⟨.field, owner, name, descriptor⟩ := by
  rw [fieldRef_eq] at hpool ⊢
  have hmember := hpool.keeps.memberAt (memberAt_memberRef hcoh (hpool.clean hclean))
  simp only [Activation.member?, hmember, if_true]

theorem member?_methodRef {type : MethodType} (hcoh : p.Coherent)
    (hpool : Grows (p.methodRef owner name type).2 M.pool) (hclean : M.pool.violation = none) :
    Activation.member? M.pool .method (p.methodRef owner name type).1 =
      some ⟨.method, owner, name, type.descriptor⟩ := by
  rw [methodRef_eq] at hpool ⊢
  have hmember := hpool.keeps.memberAt (memberAt_memberRef hcoh (hpool.clean hclean))
  simp only [Activation.member?, hmember, if_true]

theorem classAt_of_grows (hcoh : p.Coherent) (hpool : Grows (p.classRef name).2 M.pool)
    (hclean : M.pool.violation = none) : M.pool.classAt (p.classRef name).1 = .ok name :=
  hpool.keeps.classAt (classAt_classRef hcoh (hpool.clean hclean)).2

variable {st : List Value} {l : Nat → Option Value} {w w' : World σ} {c : List Call} {r : Ref}

/-- **The rule of an instruction that names a constant.** -/
theorem Carries.linked (op : Opcode) (intern : ConstantPool → UInt16 × ConstantPool)
    (hsize : op.operandSize = 2) (hreg : Regular x)
    (hwrites : ∀ e e', x e = .ok ((), e') →
      ∃ t, e' = (e.withPool (intern e.pool).2).written t (.linked op (intern e.pool).1 hsize))
    (hbranch : branch? op s.stack = none)
    (hop : ∀ p : ConstantPool, p.Coherent → Grows (intern p).2 M.pool → M.pool.violation = none →
      ∀ i : Instruction, i.op = op → i.word 0 = (intern p).1 → M.operate i s = some s') :
    M.Carries x s s' :=
  .write hreg fun e e' hrun hready hpool hclean => by
    obtain ⟨t, rfl⟩ := hwrites e e' hrun
    exact ⟨.linked op (intern e.pool).1 hsize, rfl, hbranch,
      hop e.pool hready.coherent hpool hclean _ rfl (word_linked _ _ _)⟩

theorem Carries.getField {type : JavaType} :
    M.Carries (getField owner name type) ⟨.ref (some r) :: st, l, w, c⟩
      ⟨w.fields r ⟨.field, owner, name, type.descriptor⟩ :: st, l, w, c⟩ := by
  refine .linked .getfield (·.fieldRef owner name type.descriptor) rfl
    (regular_getField owner name type) (fun e e' hrun => ?_) rfl
    fun p hcoh hpool hclean i hi hword => ?_
  · obtain ⟨-, -, rfl⟩ := getField_eq_ok.1 hrun
    exact ⟨_, rfl⟩
  · simp only [operate, hi, hword, Activation.readField, member?_fieldRef hcoh hpool hclean,
      Activation.withStack]

theorem Carries.putField {type : JavaType} {v : Value}
    (h : w.setField? r ⟨.field, owner, name, type.descriptor⟩ v = some w') :
    M.Carries (putField owner name type) ⟨v :: .ref (some r) :: st, l, w, c⟩ ⟨st, l, w', c⟩ := by
  refine .linked .putfield (·.fieldRef owner name type.descriptor) rfl
    (regular_putField owner name type) (fun e e' hrun => ?_) rfl
    fun p hcoh hpool hclean i hi hword => ?_
  · obtain ⟨-, rfl⟩ := putField_eq_ok.1 hrun
    exact ⟨_, rfl⟩
  · simp only [operate, hi, hword, Activation.writeField, member?_fieldRef hcoh hpool hclean, h,
      Option.map_some]

theorem Carries.getStatic {type : JavaType} {v : Value}
    (h : M.platform.static ⟨.field, owner, name, type.descriptor⟩ w = some v) :
    M.Carries (getStatic owner name type) ⟨st, l, w, c⟩ ⟨v :: st, l, w, c⟩ := by
  refine .linked .getstatic (·.fieldRef owner name type.descriptor) rfl
    (regular_getStatic owner name type) (fun e e' hrun => ?_) rfl
    fun p hcoh hpool hclean i hi hword => ?_
  · obtain ⟨-, rfl⟩ := getStatic_eq_ok.1 hrun
    exact ⟨_, rfl⟩
  · simp only [operate, hi, hword, Activation.readStatic, member?_fieldRef hcoh hpool hclean,
      Option.bind_some, h, Option.map_some, Activation.push, Activation.withStack]

theorem Carries.newObject :
    M.Carries (newObject name) ⟨st, l, w, c⟩
      ⟨.ref (some (M.platform.create name w).1) :: st, l, (M.platform.create name w).2, c⟩ := by
  refine .linked .new (·.classRef name) rfl
    (regular_newObject name) (fun e e' hrun => ?_) rfl
    fun p hcoh hpool hclean i hi hword => ?_
  · obtain ⟨-, rfl⟩ := newObject_eq_ok.1 hrun
    exact ⟨_, rfl⟩
  · simp only [operate, hi, hword, Activation.allocate, classAt_of_grows hcoh hpool hclean]

/-- A cast passes the null reference and instances. -/
theorem Carries.checkCast {type : JavaType} {cls : String} {r : Option Ref}
    (hcls : type.className? = some cls) (h : Activation.mayHold M.platform w cls r = true) :
    M.Carries (checkCast type) ⟨.ref r :: st, l, w, c⟩ ⟨.ref r :: st, l, w, c⟩ := by
  refine .linked .checkcast (·.classRef cls) rfl
    (regular_checkCast type) (fun e e' hrun => ?_) rfl
    fun p hcoh hpool hclean i hi hword => ?_
  · obtain ⟨name, hname, rfl⟩ := checkCast_eq_ok.1 hrun
    obtain rfl : cls = name := Option.some.inj (hcls.symm.trans hname)
    exact ⟨_, rfl⟩
  · simp only [operate, hi, hword, Activation.checkCast, classAt_of_grows hcoh hpool hclean, h,
      if_true]

/-! ### Calls -/

variable {type : MethodType} {args : List Value}

/-- The arguments lie on the stack, the last one on top. -/
theorem invoke_eq {receiver : Bool} {index : UInt16} {m : MemberRef}
    (hmember : Activation.member? M.pool .method index = some m)
    (htype : MethodType.ofDescriptor? m.descriptor = some type)
    (hcount : args.length = type.params.length + if receiver then 1 else 0)
    (hreceiver : receiver = true → args.head? ≠ some .null) :
    Activation.invoke M.platform M.pool receiver index ⟨args.reverse ++ st, l, w, c⟩ =
      Activation.enter M.platform m args ⟨st, l, w, c⟩ := by
  have htake : (args.reverse ++ st).take args.length = args.reverse :=
    List.take_left' (List.length_reverse)
  have hdrop : (args.reverse ++ st).drop args.length = st := List.drop_left' List.length_reverse
  simp only [Activation.invoke, hmember, htype, ← hcount, htake, hdrop, List.reverse_reverse,
    Nat.lt_irrefl, false_or, Activation.withStack]
  rw [if_neg fun h => hreceiver h.1 h.2]

theorem Carries.invokeVirtual (htype : CallFits type)
    (hcount : args.length = type.params.length + 1) (hreceiver : args.head? ≠ some .null)
    (h : Activation.enter M.platform ⟨.method, owner, name, type.descriptor⟩ args ⟨st, l, w, c⟩ =
      some s') :
    M.Carries (invokeVirtual owner name type) ⟨args.reverse ++ st, l, w, c⟩ s' := by
  refine .linked .invokevirtual (·.methodRef owner name type) rfl
    (regular_invokeVirtual owner name type) (fun e e' hrun => ?_) rfl
    fun p hcoh hpool hclean i hi hword => ?_
  · obtain ⟨-, -, -, rfl⟩ := invokeVirtual_eq_ok.1 hrun
    exact ⟨_, rfl⟩
  · simp only [operate, hi, hword]
    rw [← h]
    exact invoke_eq (member?_methodRef hcoh hpool hclean) htype hcount fun _ => hreceiver

theorem Carries.invokeSpecial (htype : CallFits type)
    (hcount : args.length = type.params.length + 1) (hreceiver : args.head? ≠ some .null)
    (h : Activation.enter M.platform ⟨.method, owner, name, type.descriptor⟩ args ⟨st, l, w, c⟩ =
      some s') :
    M.Carries (invokeSpecial owner name type) ⟨args.reverse ++ st, l, w, c⟩ s' := by
  refine .linked .invokespecial (·.methodRef owner name type) rfl
    (regular_invokeSpecial owner name type) (fun e e' hrun => ?_) rfl
    fun p hcoh hpool hclean i hi hword => ?_
  · obtain ⟨-, -, -, rfl⟩ := invokeSpecial_eq_ok.1 hrun
    exact ⟨_, rfl⟩
  · simp only [operate, hi, hword]
    rw [← h]
    exact invoke_eq (member?_methodRef hcoh hpool hclean) htype hcount fun _ => hreceiver

theorem Carries.invokeStatic (htype : CallFits type) (hcount : args.length = type.params.length)
    (h : Activation.enter M.platform ⟨.method, owner, name, type.descriptor⟩ args ⟨st, l, w, c⟩ =
      some s') :
    M.Carries (invokeStatic owner name type) ⟨args.reverse ++ st, l, w, c⟩ s' := by
  refine .linked .invokestatic (·.methodRef owner name type) rfl
    (regular_invokeStatic owner name type) (fun e e' hrun => ?_) rfl
    fun p hcoh hpool hclean i hi hword => ?_
  · obtain ⟨-, -, -, rfl⟩ := invokeStatic_eq_ok.1 hrun
    exact ⟨_, rfl⟩
  · simp only [operate, hi, hword]
    rw [← h]
    exact invoke_eq (member?_methodRef hcoh hpool hclean) htype hcount fun h =>
      absurd h Bool.false_ne_true

end Members

/-! ### Conditions -/

/-- A branch leads to its label or falls through. -/
theorem Loads.reaches_branch {op : Opcode} {l : Label} {u : Unit} {place : Nat} {taken : Bool}
    {st : List Value} (h : M.Loads f) (he : e.Ready) (hrun : Emitter.branch op l e = .ok (u, e'))
    (hpre : e'.Precedes f) (hl : f.assembly.labels[l.id]? = some (some place))
    (hb : branch? op s.stack = some (taken, st)) :
    M.Reaches ⟨e.assembly.code.size, s⟩
      ⟨if taken then place else e'.assembly.code.size, s.withStack st⟩ := by
  obtain ⟨hshort, -, -, rfl⟩ := branch_eq_ok.1 hrun
  obtain ⟨i, hat, hop, htarget⟩ := Assembly.branch_of_precedes hshort he.assembly
    h.ready.assembly hpre.assembly hl h.code
  have hsize : (e.branched op l (operandSize_of_isShortBranch hshort)).assembly.code.size =
      e.assembly.code.size + op.encodedLength := Assembly.size_append _ _
  refine .single ?_
  cases taken with
  | true =>
    have hplace : ¬((place : Int) < 0) := by omega
    simp only [step, hat, hop, hb, htarget, if_neg hplace, Int.toNat_natCast, if_true]
  | false =>
    simp only [step, hat, hop, hb, Bool.false_eq_true, if_false, hsize]

section Conditions

variable {st : List Value} {l : Nat → Option Value} {w : World σ} {c : List Call}

/-- What the parts of code under a condition do to the emitter. -/
theorem exists_of_skipping {u : Unit} (htest : Regular test) (hx : Regular x) (hready : e.Ready)
    (hrun : skipping test x e = .ok (u, e')) (hpre : e'.Precedes f) :
    ∃ skip e₁ e₂ e₃ e₄, test e₁ = .ok ((), e₂) ∧ Emitter.branch .ifeq skip e₂ = .ok ((), e₃) ∧
      x e₃ = .ok ((), e₄) ∧ e₁.Ready ∧ e₂.Ready ∧ e₃.Ready ∧ e₂.Precedes f ∧ e₃.Precedes f ∧
      e₄.Precedes f ∧ e₁.assembly.code = e.assembly.code ∧ e'.assembly.code = e₄.assembly.code ∧
      f.assembly.labels[skip.id]? = some (some e₄.assembly.code.size) := by
  obtain ⟨skip, e₁, hnew, hrun⟩ := Emit.bind_eq_ok.1 hrun
  obtain ⟨_, e₂, htested, hrun⟩ := Emit.bind_eq_ok.1 hrun
  obtain ⟨_, e₃, hbranch, hrun⟩ := Emit.bind_eq_ok.1 hrun
  obtain ⟨_, e₄, hbody, hplace⟩ := Emit.bind_eq_ok.1 hrun
  obtain ⟨h₁, -⟩ := regular_newLabel _ _ _ hnew hready
  obtain ⟨h₂, -⟩ := htest _ _ _ htested h₁
  obtain ⟨h₃, hpre₂⟩ := regular_branch _ _ _ _ _ hbranch h₂
  obtain ⟨h₄, hpre₃⟩ := hx _ _ _ hbody h₃
  obtain ⟨-, hpre₄⟩ := regular_placeLabel _ _ _ _ hplace h₄
  obtain ⟨hlabel, hcode⟩ := label_of_placeLabel hplace
  exact ⟨skip, e₁, e₂, e₃, e₄, htested, hbranch, hbody, h₁, h₂, h₃,
    hpre₂.trans (hpre₃.trans (hpre₄.trans hpre)), hpre₃.trans (hpre₄.trans hpre),
    hpre₄.trans hpre, code_of_newLabel hnew, hcode, hpre.assembly.labels _ _ hlabel⟩

/-- **Code under a condition that does not hold is passed over.** -/
theorem Carries.skip (htest : M.Carries test s ⟨.int 0 :: st, l, w, c⟩) (hx : Regular x) :
    M.Carries (skipping test x) s ⟨st, l, w, c⟩ where
  regular := regular_skipping htest.regular hx
  reaches hload hrun hready hpre := by
    obtain ⟨skip, e₁, e₂, e₃, e₄, htested, hbranch, -, h₁, h₂, -, hpre₂, hpre₃, -, hcode₁, hcode,
      hlabel⟩ := exists_of_skipping htest.regular hx hready hrun hpre
    have hfirst := htest.reaches hload htested h₁ hpre₂
    have hjump := hload.reaches_branch (s := ⟨.int 0 :: st, l, w, c⟩) h₂ hbranch hpre₃ hlabel rfl
    rw [← hcode₁, hcode]
    exact hfirst.trans hjump

/-- **Code under a condition that holds is run.** -/
theorem Carries.take {v : Int32} (hv : v ≠ 0)
    (htest : M.Carries test s ⟨.int v :: st, l, w, c⟩) (hx : M.Carries x ⟨st, l, w, c⟩ s') :
    M.Carries (skipping test x) s s' where
  regular := regular_skipping htest.regular hx.regular
  reaches hload hrun hready hpre := by
    obtain ⟨skip, e₁, e₂, e₃, e₄, htested, hbranch, hbody, h₁, h₂, h₃, hpre₂, hpre₃, hpre₄, hcode₁,
      hcode, hlabel⟩ := exists_of_skipping htest.regular hx.regular hready hrun hpre
    have hfirst := htest.reaches hload htested h₁ hpre₂
    have hnext := hload.reaches_branch (s := ⟨.int v :: st, l, w, c⟩) h₂ hbranch hpre₃ hlabel
      (show branch? .ifeq _ = some (false, st) by simp [branch?, hv])
    rw [← hcode₁, hcode]
    exact (hfirst.trans hnext).trans (hx.reaches hload hbody h₃ hpre₄)

/-- **Code under a condition that holds may end the method.** -/
theorem Returns.take {v : Int32} (hv : v ≠ 0)
    (htest : M.Carries test s ⟨.int v :: st, l, w, c⟩)
    (hx : M.Returns x ⟨st, l, w, c⟩ value s') : M.Returns (skipping test x) s value s' where
  regular := regular_skipping htest.regular hx.regular
  returns hload hrun hready hpre := by
    obtain ⟨skip, e₁, e₂, e₃, e₄, htested, hbranch, hbody, h₁, h₂, h₃, hpre₂, hpre₃, hpre₄, hcode₁,
      hcode, hlabel⟩ := exists_of_skipping htest.regular hx.regular hready hrun hpre
    have hfirst := htest.reaches hload htested h₁ hpre₂
    have hnext := hload.reaches_branch (s := ⟨.int v :: st, l, w, c⟩) h₂ hbranch hpre₃ hlabel
      (show branch? .ifeq _ = some (false, st) by simp [branch?, hv])
    obtain ⟨pc, hreach, hreturn⟩ := hx.returns hload hbody h₃ hpre₄
    rw [← hcode₁]
    exact ⟨pc, (hfirst.trans hnext).trans hreach, hreturn⟩

/-- What the parts of code with two paths do to the emitter. -/
theorem exists_of_fork {op : Opcode} {u : Unit} (htest : Regular test) (hx : Regular x)
    (hy : Regular y) (hready : e.Ready) (hrun : fork test op x y e = .ok (u, e'))
    (hpre : e'.Precedes f) :
    ∃ taken done e₂ e₃ e₄ e₅ e₆ e₇ e₈, test e₂ = .ok ((), e₃) ∧
      Emitter.branch op taken e₃ = .ok ((), e₄) ∧ x e₄ = .ok ((), e₅) ∧
      Emitter.branch .goto done e₅ = .ok ((), e₆) ∧ y e₇ = .ok ((), e₈) ∧
      e₂.Ready ∧ e₃.Ready ∧ e₄.Ready ∧ e₅.Ready ∧ e₇.Ready ∧
      e₃.Precedes f ∧ e₄.Precedes f ∧ e₅.Precedes f ∧ e₆.Precedes f ∧ e₈.Precedes f ∧
      e₂.assembly.code = e.assembly.code ∧ e'.assembly.code = e₈.assembly.code ∧
      f.assembly.labels[taken.id]? = some (some e₇.assembly.code.size) ∧
      f.assembly.labels[done.id]? = some (some e₈.assembly.code.size) := by
  obtain ⟨taken, e₁, hnew, hrun⟩ := Emit.bind_eq_ok.1 hrun
  obtain ⟨done, e₂, hnew', hrun⟩ := Emit.bind_eq_ok.1 hrun
  obtain ⟨_, e₃, htested, hrun⟩ := Emit.bind_eq_ok.1 hrun
  obtain ⟨_, e₄, hbranch, hrun⟩ := Emit.bind_eq_ok.1 hrun
  obtain ⟨_, e₅, hfirst, hrun⟩ := Emit.bind_eq_ok.1 hrun
  obtain ⟨_, e₆, hgoto, hrun⟩ := Emit.bind_eq_ok.1 hrun
  obtain ⟨_, e₇, hplace, hrun⟩ := Emit.bind_eq_ok.1 hrun
  obtain ⟨_, e₈, hsecond, hend⟩ := Emit.bind_eq_ok.1 hrun
  obtain ⟨h₁, -⟩ := regular_newLabel _ _ _ hnew hready
  obtain ⟨h₂, -⟩ := regular_newLabel _ _ _ hnew' h₁
  obtain ⟨h₃, -⟩ := htest _ _ _ htested h₂
  obtain ⟨h₄, hpre₃⟩ := regular_branch _ _ _ _ _ hbranch h₃
  obtain ⟨h₅, hpre₄⟩ := hx _ _ _ hfirst h₄
  obtain ⟨h₆, hpre₅⟩ := regular_branch _ _ _ _ _ hgoto h₅
  obtain ⟨h₇, hpre₆⟩ := regular_placeLabel _ _ _ _ hplace h₆
  obtain ⟨h₈, hpre₇⟩ := hy _ _ _ hsecond h₇
  obtain ⟨-, hpre₈⟩ := regular_placeLabel _ _ _ _ hend h₈
  obtain ⟨hlabel, hcode⟩ := label_of_placeLabel hplace
  obtain ⟨hlabel', hcode'⟩ := label_of_placeLabel hend
  -- Each part is followed by all the later ones.
  have hpre₈ := hpre₈.trans hpre
  have hpre₇ := hpre₇.trans hpre₈
  have hpre₆ := hpre₆.trans hpre₇
  have hpre₅ := hpre₅.trans hpre₆
  have hpre₄ := hpre₄.trans hpre₅
  rw [← hcode] at hlabel
  exact ⟨taken, done, e₂, e₃, e₄, e₅, e₆, e₇, e₈, htested, hbranch, hfirst, hgoto, hsecond, h₂, h₃,
    h₄, h₅, h₇, hpre₃.trans hpre₄, hpre₄, hpre₅, hpre₆, hpre₈,
    (code_of_newLabel hnew').trans (code_of_newLabel hnew), hcode',
    hpre₇.assembly.labels _ _ hlabel, hpre.assembly.labels _ _ hlabel'⟩

/-- **The first path**, where the branch is not taken. -/
theorem Carries.fork_next {op : Opcode} (htest : M.Carries test s s')
    (hb : branch? op s'.stack = some (false, st)) (hx : M.Carries x (s'.withStack st) s'')
    (hy : Regular y) : M.Carries (fork test op x y) s s'' where
  regular := regular_fork htest.regular hx.regular hy
  reaches hload hrun hready hpre := by
    obtain ⟨taken, done, e₂, e₃, e₄, e₅, e₆, e₇, e₈, htested, hbranch, hfirst, hgoto, -, h₂, h₃, h₄,
      h₅, -, hpre₃, hpre₄, hpre₅, hpre₆, -, hcode₂, hcode, hlabel, hlabel'⟩ :=
      exists_of_fork htest.regular hx.regular hy hready hrun hpre
    have hnext := hload.reaches_branch h₃ hbranch hpre₄ hlabel hb
    have hjump := hload.reaches_branch (s := s'') h₅ hgoto hpre₆ hlabel' rfl
    rw [← hcode₂, hcode]
    exact (((htest.reaches hload htested h₂ hpre₃).trans hnext).trans
      (hx.reaches hload hfirst h₄ hpre₅)).trans hjump

/-- **The second path**, where the branch is taken. -/
theorem Carries.fork_taken {op : Opcode} (htest : M.Carries test s s')
    (hb : branch? op s'.stack = some (true, st)) (hx : Regular x)
    (hy : M.Carries y (s'.withStack st) s'') : M.Carries (fork test op x y) s s'' where
  regular := regular_fork htest.regular hx hy.regular
  reaches hload hrun hready hpre := by
    obtain ⟨taken, done, e₂, e₃, e₄, e₅, e₆, e₇, e₈, htested, hbranch, -, -, hsecond, h₂, h₃, -, -,
      h₇, hpre₃, hpre₄, -, -, hpre₈, hcode₂, hcode, hlabel, -⟩ :=
      exists_of_fork htest.regular hx hy.regular hready hrun hpre
    have hjump := hload.reaches_branch h₃ hbranch hpre₄ hlabel hb
    rw [← hcode₂, hcode]
    exact ((htest.reaches hload htested h₂ hpre₃).trans hjump).trans
      (hy.reaches hload hsecond h₇ hpre₈)

end Conditions

end Machine

end ClassForge
