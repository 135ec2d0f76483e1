import ClassForge.Proofs.Adapter.Tracing
import ClassForge.Proofs.Machine.Arrays

/-!
# Running an adapter

What the method `execute` of an adapter does around the rule's own code: it takes values from the
call, runs the rule, and hands updated values back.

* `AdapterPlan.incoming?` — what a binding takes from the call;
* `AdapterPlan.Saves` — updated bindings are in the argument array, the last one where bindings
  share an index, and nothing else changed;
* `exists_carries_loadArguments`, `exists_carries_saveArguments` — **PROVED**: both loops;
* `execute_of_build` — **PROVED**: the whole method of a built class.
-/

namespace ClassForge

open ConstantPool Emitter

namespace Binding

/-- Does the binding take a value from the call? -/
def loads (b : Binding) : Bool := b.isStored && (b.isRecipient || !b.isBindVar)

/-- Does the call get the binding's value back? -/
def saves (b : Binding) : Bool := b.isStored && b.isUpdated && !b.isBindVar

end Binding

namespace AdapterPlan

variable {p : AdapterPlan} {σ : Type} {M : Machine σ} {w w₁ w' : World σ} {self : Ref}
  {recv args : Option Ref} {b : Binding} {bs : List Binding} {l : Nat → Option Value}
  {c : List Call}

theorem toInt_argIndex (b : Binding) :
    (Int32.ofNat b.argIndex.toNat).toInt = (b.argIndex.toNat : Int) := by
  have hlt := b.argIndex.toNat_lt
  exact Int32.toInt_ofNat_of_lt (by omega)

theorem carries_argConst (s : Activation σ) :
    M.Carries (Adapter.argConst b) s (s.push (.int (Int32.ofNat b.argIndex.toNat))) :=
  .intConst _ s

/-! ### Taking values from the call -/

/-- The object that a binding takes from the call: the receiver, or an element of the argument
array. -/
def incoming? (w : World σ) (recv args : Option Ref) (b : Binding) : Option (Option Ref) :=
  if b.loads then
    if b.isRecipient then some recv else w.element? args b.argIndex.toNat
  else none

/-- Pushes the object that a binding takes from the call. -/
def pushIncoming (b : Binding) : Emit Unit :=
  if b.isRecipient then loadRef 1
  else do
    loadRef 2
    Adapter.argConst b
    emit .aaload

theorem loadArgument_of_loads (h : b.loads = true) :
    Adapter.loadArgument p.className (p.planned b) = (do
      loadRef 0
      pushIncoming b
      Adapter.storeObject p.className b.fieldName (p.rule.fieldType b)
        (!p.rule.policy.hides b.type)
      checkBalanced) := by
  unfold Binding.loads at h
  rw [Bool.and_eq_true] at h
  simp only [Adapter.loadArgument, storage_planned_of_isStored h.1, needsConversion_of_isStored h.1]
  show (if b.isRecipient = true then _ else if (!b.isBindVar) = true then _ else _) = _
  unfold pushIncoming
  cases hrecipient : b.isRecipient with
  | true => rfl
  | false =>
    rw [hrecipient, Bool.false_or] at h
    rw [if_neg (by nofun), if_pos h.2, if_neg (by nofun)]
    simp only [bind_assoc]
    rfl

theorem loadArgument_of_not_loads (h : b.loads = false) :
    Adapter.loadArgument p.className (p.planned b) = pure () := by
  cases hstored : b.isStored with
  | true =>
    unfold Binding.loads at h
    rw [hstored, Bool.true_and, Bool.or_eq_false_iff] at h
    simp only [Adapter.loadArgument, storage_planned_of_isStored hstored]
    show (if b.isRecipient = true then _ else if (!b.isBindVar) = true then _ else pure ()) = _
    rw [h.1, h.2, if_neg (by nofun), if_neg (by nofun)]
  | false =>
    rcases storage_planned_of_not_isStored (p := p) hstored with hstorage | hstorage <;>
      simp only [Adapter.loadArgument, hstorage]

theorem carries_pushIncoming {r : Option Ref} {st : List Value} (hl₁ : l 1 = some (.ref recv))
    (hl₂ : l 2 = some (.ref args)) (h : incoming? w recv args b = some r) :
    M.Carries (pushIncoming b) ⟨st, l, w, c⟩ ⟨.ref r :: st, l, w, c⟩ := by
  unfold incoming? at h
  unfold pushIncoming
  cases hloads : b.loads with
  | false =>
    rw [hloads, if_neg (by nofun)] at h
    cases h
  | true =>
    rw [hloads, if_pos rfl] at h
    cases hrecipient : b.isRecipient with
    | true =>
      rw [hrecipient, if_pos rfl] at h
      cases h
      exact .loadRef (by decide) hl₁
    | false =>
      rw [hrecipient, if_neg (by nofun)] at h
      exact (Machine.Carries.loadRef (by decide) hl₂).seq ((carries_argConst _).seq
        (.loadElement (toInt_argIndex b) h))

theorem incoming?_of_retains {r : Option Ref} (h : w.Retains w')
    (hr : incoming? w recv args b = some r) : incoming? w' recv args b = some r := by
  unfold incoming? at hr ⊢
  split_ifs at hr ⊢
  · exact hr
  · exact h.element? hr

/-- What the code for one binding does. -/
theorem exists_carries_loadArgument {w₀ : World σ} (hfit : p.FieldsFit) (hb : b ∈ p.rule.bindings)
    (hl₀ : l 0 = some (.ref (some self))) (hl₁ : l 1 = some (.ref recv))
    (hl₂ : l 2 = some (.ref args)) (hretains : w₀.Retains w)
    (hsource : b.loads = true → incoming? w₀ recv args b ≠ none)
    (hcast : ∀ r, incoming? w₀ recv args b = some r → p.taken? M.platform w b r ≠ none) :
    ∃ w', p.Stores M.platform self (incoming? w₀ recv args) [b] w w' ∧
      M.Carries (Adapter.loadArgument p.className (p.planned b)) ⟨[], l, w, c⟩
        ⟨[], l, w', c⟩ := by
  cases hloads : b.loads with
  | false =>
    have hnone : incoming? w₀ recv args b = none := if_neg (by rw [hloads]; nofun)
    rw [loadArgument_of_not_loads hloads]
    refine ⟨w, .of_keeps (.refl w) fun b' hb' => ?_, .pure _⟩
    rw [List.mem_singleton.1 hb', hnone]
  | true =>
    have hstored : b.isStored = true := ((Bool.and_eq_true _ _).mp hloads).1
    obtain ⟨r, hr⟩ := Option.ne_none_iff_exists'.1 (hsource hloads)
    obtain ⟨w', hstores, hstore⟩ := exists_stores_storeObject (M := M) self hfit hb
      hstored hr (hcast r hr)
    rw [loadArgument_of_loads hloads]
    exact ⟨w', hstores, (Machine.Carries.loadRef (by decide) hl₀).seq
      ((carries_pushIncoming hl₁ hl₂ (incoming?_of_retains hretains hr)).seq
        ((hstore _ _ _).seq (.checkBalanced _)))⟩

/-- **All bindings take their values from the call.** -/
theorem exists_carries_loadArguments {w₀ : World σ} (hfit : p.FieldsFit)
    (hl₀ : l 0 = some (.ref (some self))) (hl₁ : l 1 = some (.ref recv))
    (hl₂ : l 2 = some (.ref args)) (hself : w.objects self ≠ none) (hretains : w₀.Retains w)
    (hsource : ∀ b ∈ p.rule.bindings, b.loads = true → incoming? w₀ recv args b ≠ none)
    (hcasts : ∀ b ∈ p.rule.bindings, ∀ r, incoming? w₀ recv args b = some r →
      p.taken? M.platform w b r ≠ none) :
    ∃ w', p.Stores M.platform self (incoming? w₀ recv args) p.rule.bindings w w' ∧
      M.Carries (Adapter.loadArguments p.className p.rule.layout) ⟨[], l, w, c⟩ ⟨[], l, w', c⟩ :=
  exists_carries_each (g := Adapter.loadArguments p.className) rfl (fun _ _ => rfl) hself hcasts
    fun b hb _ hlater => exists_carries_loadArgument hfit hb hl₀ hl₁ hl₂ (hretains.trans hlater)
      (hsource b hb) fun r hr => taken?_ne_none_of_retains hlater (hcasts b hb r hr)

/-! ### Handing values back -/

/-- The argument array has room for the value of a binding. -/
def Savable (p : AdapterPlan) (P : Platform σ) (w : World σ) (adapter : Ref) (args : Option Ref)
    (b : Binding) : Prop :=
  ∃ array element items, args = some array ∧ w.objects array = some (.array element items) ∧
    b.argIndex.toNat < items.length ∧
    P.holds w element (p.rule.fieldType b) (w.fields adapter (p.fieldOf b)) = true

/-- The values of updated bindings are in the argument array, as objects; the last one where
bindings share an index.  No other element, object or field changed. -/
structure Saves (p : AdapterPlan) (adapter : Ref) (args : Option Ref) (bs : List Binding)
    (w w' : World σ) : Prop where
  preserves : w.Preserves w'
  objects : ∀ r o, some r ≠ args → w.objects r = some o → w'.objects r = some o
  fields : ∀ r, w.objects r ≠ none → ∀ m, w'.fields r m = w.fields r m
  saved : ∀ b, b.saves = true →
    LastIn bs (fun b' => b'.saves = true ∧ b'.argIndex = b.argIndex) b →
    ∃ r, w'.element? args b.argIndex.toNat = some r ∧
      w'.Shows (p.rule.fieldType b) (w.fields adapter (p.fieldOf b)) r
  others : ∀ k, (∀ b ∈ bs, b.saves = true → b.argIndex.toNat ≠ k) →
    w'.element? args k = w.element? args k

theorem Saves.refl (w : World σ) (hnone : ∀ b ∈ bs, b.saves = false) :
    p.Saves self args bs w w where
  preserves := World.Retains.preserves fun _ _ h => h
  objects _ _ _ h := h
  fields _ _ _ := rfl
  saved b hsaves hlast := by
    rw [hnone b hlast.mem] at hsaves
    cases hsaves
  others _ _ := rfl

theorem Saves.cons (hself : w.objects self ≠ none) (h : p.Saves self args [b] w w₁)
    (h' : p.Saves self args bs w₁ w') : p.Saves self args (b :: bs) w w' where
  preserves := h.preserves.trans h'.preserves
  objects r o hne ho := h'.objects r o hne (h.objects r o hne ho)
  fields r hr m := (h'.fields r (h.preserves.ne_none hr) m).trans (h.fields r hr m)
  saved b' hsaves hlast := by
    rcases hlast.head_or_tail with ⟨rfl, hafter⟩ | hlast
    · -- No later binding writes the element again.
      obtain ⟨r, hr, hshows⟩ := h.saved b' hsaves ⟨[], [], rfl, nofun⟩
      refine ⟨r, ?_, h'.preserves.shows hshows⟩
      rw [h'.others _ fun b'' hb'' hsaves'' heq =>
        hafter b'' hb'' ⟨hsaves'', UInt16.toNat_inj.1 heq⟩]
      exact hr
    · obtain ⟨r, hr, hshows⟩ := h'.saved b' hsaves hlast
      rw [h.fields self hself] at hshows
      exact ⟨r, hr, hshows⟩
  others k hother := by
    rw [h'.others k fun b' hb' => hother b' (List.mem_cons_of_mem b hb')]
    refine h.others k fun b' hb' => ?_
    rw [List.mem_singleton.1 hb']
    exact hother b List.mem_cons_self

/-- Saving a binding leaves room for the others. -/
theorem Savable.of_saves {P : Platform σ} (hself : w.objects self ≠ none)
    (h : p.Saves self args bs w w') (hroom : p.Savable P w self args b) :
    p.Savable P w' self args b := by
  obtain ⟨array, element, items, rfl, hobj, hlength, hholds⟩ := hroom
  obtain ⟨o', ho', hsame⟩ := h.preserves array _ hobj
  have hholds' := h.preserves.holds hholds
  rw [← h.fields self hself] at hholds'
  cases hsame with
  | refl => exact ⟨array, element, items, rfl, ho', hlength, hholds'⟩
  | array hitems => exact ⟨array, element, _, rfl, ho', by omega, hholds'⟩

theorem saveArgument_of_saves (h : b.saves = true) :
    Adapter.saveArgument p.className (p.planned b) = (do
      loadRef 2
      Adapter.argConst b
      loadRef 0
      getField p.className b.fieldName (p.rule.fieldType b)
      toObject (p.rule.fieldType b)
      emit .aastore
      checkBalanced) := by
  unfold Binding.saves at h
  rw [Bool.and_eq_true, Bool.and_eq_true, Bool.not_eq_true'] at h
  simp only [Adapter.saveArgument, storage_planned_of_isStored h.1.1]
  show (if (!b.isUpdated || b.isBindVar) = true then _ else _) = _
  rw [h.1.2, h.2]
  rfl

theorem saveArgument_of_not_saves (h : b.saves = false) :
    Adapter.saveArgument p.className (p.planned b) = pure () := by
  cases hstored : b.isStored with
  | true =>
    have hskip : (!b.isUpdated || b.isBindVar) = true := by
      unfold Binding.saves at h
      rw [hstored, Bool.true_and] at h
      cases hupdated : b.isUpdated <;> cases hbind : b.isBindVar <;> simp_all
    simp only [Adapter.saveArgument, storage_planned_of_isStored hstored]
    exact if_pos hskip
  | false =>
    rcases storage_planned_of_not_isStored (p := p) hstored with hstorage | hstorage <;>
      simp only [Adapter.saveArgument, hstorage]

/-- What storing one element changes. -/
theorem saves_setObject {array : Ref} {element : String} {items : List (Option Ref)}
    {item : Option Ref} (hsaves : b.saves = true) (hkeeps : w.Keeps w₁)
    (hobj : w.objects array = some (.array element items))
    (hlength : b.argIndex.toNat < items.length)
    (hshows : w₁.Shows (p.rule.fieldType b) (w.fields self (p.fieldOf b)) item) :
    p.Saves self (some array) [b] w
      (w₁.setObject array (.array element (items.set b.argIndex.toNat item))) := by
  have hobj₁ := hkeeps.objects array _ hobj
  have hobjects := World.objects_setObject (w := w₁) (r := array) (by rw [hobj₁]; nofun)
    (.array element (items.set b.argIndex.toNat item))
  have hsame : w₁.Preserves
      (w₁.setObject array (.array element (items.set b.argIndex.toNat item))) := by
    intro r o ho
    rw [hobjects]
    split
    · rename_i heq
      rw [heq, hobj₁] at ho
      cases ho
      exact ⟨_, rfl, .array (List.length_set)⟩
    · exact ⟨o, ho, .refl o⟩
  have helement : ∀ k, (w₁.setObject array
      (.array element (items.set b.argIndex.toNat item))).element? (some array) k =
        (items.set b.argIndex.toNat item)[k]? := by
    intro k
    simp only [World.element?, Option.bind_some, hobjects, if_true]
  refine ⟨hkeeps.objects.preserves.trans hsame, fun r o hne ho => ?_, fun r hr m => ?_,
    fun b' _ hlast => ?_, fun k hother => ?_⟩
  · rw [hobjects, if_neg fun heq => hne (congrArg some heq)]
    exact hkeeps.objects r o ho
  · exact hkeeps.fields r hr m
  · obtain rfl := List.mem_singleton.1 hlast.mem
    refine ⟨item, ?_, hsame.shows hshows⟩
    rw [helement, List.getElem?_set_self hlength]
  · rw [helement, List.getElem?_set_ne (hother b List.mem_cons_self hsaves)]
    simp only [World.element?, Option.bind_some, hobj]

/-- What the code for one binding does. -/
theorem exists_carries_saveArgument (hfit : p.FieldsFit) (hb : b ∈ p.rule.bindings)
    (hl₀ : l 0 = some (.ref (some self))) (hl₂ : l 2 = some (.ref args))
    (hroom : b.saves = true → p.Savable M.platform w self args b) :
    ∃ w', p.Saves self args [b] w w' ∧
      M.Carries (Adapter.saveArgument p.className (p.planned b)) ⟨[], l, w, c⟩
        ⟨[], l, w', c⟩ := by
  cases hsaves : b.saves with
  | false =>
    rw [saveArgument_of_not_saves hsaves]
    refine ⟨w, .refl w fun b' hb' => ?_, .pure _⟩
    rw [List.mem_singleton.1 hb', hsaves]
  | true =>
    obtain ⟨array, element, items, rfl, hobj, hlength, hholds⟩ := hroom hsaves
    have hstored : b.isStored = true := by
      unfold Binding.saves at hsaves
      rw [Bool.and_eq_true, Bool.and_eq_true] at hsaves
      exact hsaves.1.1
    have hfits := hfit.fits_fields hb hstored w self
    obtain ⟨item, w₁, hkeeps, hshows, hconvert⟩ :=
      Machine.exists_carries_toObject (M := M) (hfit b hb hstored).1 hfits
    have hstore : M.Carries (emit .aastore)
        ⟨.ref item :: .int (Int32.ofNat b.argIndex.toNat) :: .ref (some array) :: [], l, w₁, c⟩
        ⟨[], l, w₁.setObject array (.array element (items.set b.argIndex.toNat item)), c⟩ :=
      .storeElement (toInt_argIndex b) (hkeeps.objects array _ hobj) hlength
        (hshows.mayHold hfits (hkeeps.objects.preserves.holds hholds))
    rw [saveArgument_of_saves hsaves]
    exact ⟨_, saves_setObject hsaves hkeeps hobj hlength hshows,
      (Machine.Carries.loadRef (by decide) hl₂).seq ((carries_argConst _).seq
        ((Machine.Carries.loadRef (by decide) hl₀).seq (Machine.Carries.getField.seq
          ((hconvert _ _ _).seq (hstore.seq (.checkBalanced _))))))⟩

/-- **All updated bindings are handed back.** -/
theorem exists_carries_saveArguments (hfit : p.FieldsFit)
    (hl₀ : l 0 = some (.ref (some self))) (hl₂ : l 2 = some (.ref args))
    (hmem : ∀ b ∈ bs, b ∈ p.rule.bindings) (hself : w.objects self ≠ none)
    (hroom : ∀ b ∈ bs, b.saves = true → p.Savable M.platform w self args b) :
    ∃ w', p.Saves self args bs w w' ∧
      M.Carries (Adapter.saveArguments p.className (bs.map p.planned)) ⟨[], l, w, c⟩
        ⟨[], l, w', c⟩ := by
  induction bs generalizing w with
  | nil => exact ⟨w, .refl w nofun, .pure _⟩
  | cons b bs ih =>
    obtain ⟨w₁, hsaves, hcarries⟩ := exists_carries_saveArgument (M := M) (c := c) hfit
      (hmem b List.mem_cons_self) hl₀ hl₂ (hroom b List.mem_cons_self)
    obtain ⟨w', hsaves', hcarries'⟩ := ih (fun b' hb' => hmem b' (List.mem_cons_of_mem b hb'))
      (hsaves.preserves.ne_none hself) fun b' hb' h' =>
        (hroom b' (List.mem_cons_of_mem b hb') h').of_saves hself hsaves
    exact ⟨w', hsaves.cons hself hsaves', hcarries.seq hcarries'⟩

/-! ### The whole method -/

/-- What an adapter can rely on before it runs: it exists, and where it traces its runs, it has its
rule and the methods that tracing calls return. -/
structure Runnable (p : AdapterPlan) (P : Platform σ) (w : World σ) (adapter : Ref) : Prop where
  exists_self : w.objects adapter ≠ none
  traces : p.options.trace = true → p.TracesQuietly P ∧
    ∃ rule, w.fields adapter p.ruleSlot = .ref (some rule)

theorem exists_carries_trace (h : p.Runnable M.platform w self)
    (hl₀ : l 0 = some (.ref (some self))) :
    ∃ w' calls, w.Keeps w' ∧ (∀ call ∈ calls, call.method ≠ p.ruleMethod) ∧
      M.Carries (if p.options.trace then Adapter.traceRun p.className p.names else pure ())
        ⟨[], l, w, []⟩ ⟨[], l, w', calls⟩ := by
  cases htrace : p.options.trace with
  | false => exact ⟨w, [], .refl w, nofun, .pure _⟩
  | true =>
    obtain ⟨hquiet, hrule⟩ := h.traces htrace
    exact exists_carries_traceRun hquiet hl₀ h.exists_self hrule

theorem carries_callRule (hl₀ : l 0 = some (.ref (some self)))
    (hcall : M.platform.call p.ruleMethod [.ref (some self)] w = some (none, w')) :
    M.Carries (do loadRef 0; invokeSpecial p.className "execute0" .action) ⟨[], l, w, c⟩
      ⟨[], l, w', c ++ [⟨p.ruleMethod, [.ref (some self)]⟩]⟩ := by
  have hinvoke : M.Carries (invokeSpecial p.className "execute0" .action)
      ⟨[.ref (some self)].reverse ++ [], l, w, c⟩
      ⟨[], l, w', c ++ [⟨p.ruleMethod, [.ref (some self)]⟩]⟩ :=
    .invokeSpecial callFits_action rfl nofun
      (enter_of_call (M.platform.library?_eq_none (show "execute0" ∉ _ by decide)) hcall [] l c)
  exact (Machine.Carries.loadRef (by decide) hl₀).seq hinvoke

theorem loads_of_incoming? {r : Option Ref} (h : incoming? w recv args b = some r) :
    b.loads = true := by
  unfold incoming? at h
  split at h
  · assumption
  · cases h

/-- The calls of a run: some of tracing, and then one of the rule. -/
def RunsOnce (p : AdapterPlan) (adapter : Ref) (calls : List Call) : Prop :=
  ∃ tracing, calls = tracing ++ [⟨p.ruleMethod, [.ref (some adapter)]⟩] ∧
    ∀ call ∈ tracing, call.method ≠ p.ruleMethod

theorem executeBody_eq (className : String) (names : EngineNames) (trace : Bool)
    (layout : Layout) : Adapter.executeBody className names trace layout = (do
      (if trace then Adapter.traceRun className names else pure ())
      Adapter.loadArguments className layout
      (do loadRef 0; invokeSpecial className "execute0" .action)
      checkBalanced
      Adapter.saveArguments className layout
      returnValue .void) := by
  cases trace <;>
    simp only [Adapter.executeBody, Bool.false_eq_true, if_false, if_true, pure_bind, bind_assoc]

/-- What the rule's code is run in, and what becomes of its outcome. -/
theorem exists_returns_executeBody (hfit : p.FieldsFit) (hrunnable : p.Runnable M.platform w self)
    (hl₀ : l 0 = some (.ref (some self))) (hl₁ : l 1 = some (.ref recv))
    (hl₂ : l 2 = some (.ref args))
    (hincoming : ∀ b ∈ p.rule.bindings, b.loads = true →
      ∃ r, incoming? w recv args b = some r ∧ p.taken? M.platform w b r ≠ none) :
    ∃ w₁, p.Stores M.platform self (incoming? w recv args) p.rule.bindings w w₁ ∧
      ∀ w₂, M.platform.call p.ruleMethod [.ref (some self)] w₁ = some (none, w₂) →
        w₂.objects self ≠ none →
        (∀ b ∈ p.rule.bindings, b.saves = true → p.Savable M.platform w₂ self args b) →
        ∃ w₃ calls, p.Saves self args p.rule.bindings w₂ w₃ ∧ p.RunsOnce self calls ∧
          M.Returns (Adapter.executeBody p.className p.names p.options.trace p.rule.layout)
            ⟨[], l, w, []⟩ none ⟨[], l, w₃, calls⟩ := by
  obtain ⟨w₀, tracing, hkeeps, hforeign, htrace⟩ := exists_carries_trace hrunnable hl₀
  have hcasts : ∀ b ∈ p.rule.bindings, ∀ r, incoming? w recv args b = some r →
      p.taken? M.platform w b r ≠ none := by
    intro b hb r hr
    obtain ⟨r', hr', hcast⟩ := hincoming b hb (loads_of_incoming? hr)
    rwa [Option.some.inj (hr.symm.trans hr')]
  have hsource : ∀ b ∈ p.rule.bindings, b.loads = true → incoming? w recv args b ≠ none := by
    intro b hb hloads
    obtain ⟨r, hr, -⟩ := hincoming b hb hloads
    rw [hr]
    nofun
  obtain ⟨w₁, hstores, hload⟩ := exists_carries_loadArguments (M := M) (c := tracing) hfit hl₀ hl₁
    hl₂ (hkeeps.objects.ne_none hrunnable.exists_self) hkeeps.objects hsource
    fun b hb r hr => taken?_ne_none_of_retains hkeeps.objects (hcasts b hb r hr)
  refine ⟨w₁, hstores.of_keeps_left hkeeps hcasts, fun w₂ hcall hself₂ hroom => ?_⟩
  have hrule := carries_callRule (M := M) (c := tracing) hl₀ hcall
  obtain ⟨w₃, hsaves, hsave⟩ := exists_carries_saveArguments (M := M)
    (c := tracing ++ [⟨p.ruleMethod, [.ref (some self)]⟩]) hfit hl₀ hl₂ (fun _ hb => hb) hself₂
    hroom
  have hreturn : M.Returns (returnValue .void)
      ⟨[], l, w₃, tracing ++ [⟨p.ruleMethod, [.ref (some self)]⟩]⟩ none _ := .returnValue rfl
  have hbody := htrace.seq_returns (hload.seq_returns (hrule.seq_returns
    ((Machine.Carries.checkBalanced _).seq_returns (hsave.seq_returns hreturn))))
  refine ⟨w₃, _, hsaves, ⟨tracing, rfl, hforeign⟩, ?_⟩
  rw [executeBody_eq]
  exact hbody

/-- The body, run as a method, takes the values of bindings from the call, runs the rule once, and
hands updated values back.  What the rule does in between is arbitrary. -/
def Executes (p : AdapterPlan) (pool : ConstantPool) (body : MethodBody) : Prop :=
  ∀ (σ : Type) (P : Platform σ) (w : World σ) (self : Ref) (recv args : Option Ref),
    p.Runnable P w self →
    (∀ b ∈ p.rule.bindings, b.loads = true →
      ∃ r, incoming? w recv args b = some r ∧ p.taken? P w b r ≠ none) →
    ∃ w₁, p.Stores P self (incoming? w recv args) p.rule.bindings w w₁ ∧
      ∀ w₂, P.call p.ruleMethod [.ref (some self)] w₁ = some (none, w₂) →
        w₂.objects self ≠ none →
        (∀ b ∈ p.rule.bindings, b.saves = true → p.Savable P w₂ self args b) →
        ∃ w₃ calls, p.Saves self args p.rule.bindings w₂ w₃ ∧ p.RunsOnce self calls ∧
          Machine.Completes ⟨P, pool, body.code⟩ [.ref (some self), .ref recv, .ref args] w none w₃
            calls

/-- **Running a built class.**  The method `execute` sets the field of each stored binding from the
receiver or the argument array, converted to its type; then it calls the rule's method once; then it
puts the values of updated bindings into the argument array, as objects.  Where bindings share a
field or an index, the last one wins, and nothing else changes; tracing makes no difference. -/
theorem execute_of_build {p : AdapterPlan} {bytes : List UInt8}
    (hbuild : p.build = .ok (.ok bytes)) (hfit : p.FieldsFit)
    (hclauses : p.strategy = .compiled → p.ClausesKeepPool) :
    ∃ d body, p.draft = .ok (.ok (), d) ∧ d.encode = .ok bytes ∧
      d.body? "execute" ⟨[.anyObject, .array .anyObject], .void⟩ = some body ∧
      p.Executes d.pool body := by
  obtain ⟨d, hrun, hencode⟩ := build_eq_ok.1 hbuild
  have hclean := (ClassImage.encode_eq_ok.1 hencode).1
  obtain ⟨_, body, hbody, hcode⟩ := exists_body? hrun hclean hclauses find?_execute
  refine ⟨d, body, hrun, hencode, hbody, fun σ P w self recv args hrunnable hincoming => ?_⟩
  obtain ⟨w₁, hstores, hrest⟩ := exists_returns_executeBody (M := ⟨P, d.pool, body.code⟩)
    (l := fun k => [Value.ref (some self), .ref recv, .ref args][k]?) hfit hrunnable rfl rfl rfl
    hincoming
  refine ⟨w₁, hstores, fun w₂ hcall hself₂ hroom => ?_⟩
  obtain ⟨w₃, calls, hsaves, honce, hreturns⟩ := hrest w₂ hcall hself₂ hroom
  exact ⟨w₃, calls, hsaves, honce, Machine.completes_of_emitted hcode hclean hreturns⟩

/-- The binding of a number in the sample. -/
def sampleNumber : Binding := { name := "count", type := .long, argIndex := 1, flags := .updated }

/-- An adapter with its rule, an output stream, an argument array that holds an integer, and a
receiver. -/
def calledWorld : World Unit :=
  ((World.start [.other "demo/Adapter", .other "java/io/PrintStream",
    .array "java/lang/Object" (List.replicate 301 (some 3)), .box .int (.int 7),
    .other "demo/Subject", .other "org/jboss/byteman/rule/Rule"] ()).setField? 0
      (samplePlan .compiled).ruleSlot (.ref (some 5))).getD (.start [] ())

theorem runnable_samplePlan : (samplePlan .compiled).Runnable samplePlatform calledWorld 0 :=
  ⟨by decide +kernel, fun _ => ⟨tracesQuietly_samplePlan, 5, by decide +kernel⟩⟩

/-- No later binding of the sample has the field or the index of the number. -/
theorem lastIn_sampleNumber {Q : Binding → Prop}
    (h : ∀ b ∈ (samplePlan .compiled).rule.bindings.drop 2, ¬Q b) :
    LastIn (samplePlan .compiled).rule.bindings Q sampleNumber :=
  ⟨(samplePlan .compiled).rule.bindings.take 1, _, rfl, h⟩

theorem incoming_samplePlan : ∀ b ∈ (samplePlan .compiled).rule.bindings, b.loads = true →
    ∃ r, incoming? calledWorld (some 4) (some 2) b = some r ∧
      (samplePlan .compiled).taken? samplePlatform calledWorld b r ≠ none := by
  have hall : ∀ b ∈ (samplePlan .compiled).rule.bindings, b.loads = true →
      (incoming? calledWorld (some 4) (some 2) b).bind
        ((samplePlan .compiled).taken? samplePlatform calledWorld b) ≠ none := by
    decide +kernel
  intro b hb hloads
  obtain ⟨v, hv⟩ := Option.ne_none_iff_exists'.1 (hall b hb hloads)
  obtain ⟨r, hr, hv⟩ := Option.bind_eq_some_iff.1 hv
  exact ⟨r, hr, by rw [hv]; nofun⟩

/-- An integer comes in, is stored as a wide one, and goes back as such. -/
theorem execute_of_build_samplePlan :
    ∃ d body w₃ calls r, (samplePlan .compiled).draft = .ok (.ok (), d) ∧
      d.body? "execute" ⟨[.anyObject, .array .anyObject], .void⟩ = some body ∧
      calledWorld.element? (some 2) 1 = some (some 3) ∧
      calledWorld.objects 3 = some (.box .int (.int 7)) ∧
      Machine.Completes ⟨samplePlatform, d.pool, body.code⟩
        [.ref (some 0), .ref (some 4), .ref (some 2)] calledWorld none w₃ calls ∧
      (samplePlan .compiled).RunsOnce 0 calls ∧
      w₃.element? (some 2) 1 = some r ∧ r.bind w₃.objects = some (.box .long (.long 7)) ∧
      w₃.element? (some 2) 0 = some (some 3) := by
  obtain ⟨bytes, hbuild⟩ := (feasible_samplePlan .compiled).exists_build
    (fits_samplePlan .compiled) (builds_addStrategy_compiled rfl rfl rfl rfl) (by decide)
    (by decide)
  obtain ⟨d, body, hdraft, -, hbody, hexecutes⟩ := execute_of_build hbuild
    (fieldsFit_samplePlan _) fun _ => clausesKeepPool_samplePlan _
  obtain ⟨w₁, hstores, hrest⟩ := hexecutes Unit samplePlatform calledWorld 0 (some 4) (some 2)
    runnable_samplePlan incoming_samplePlan
  have hcount : w₁.fields 0 ((samplePlan .compiled).fieldOf sampleNumber) = .long 7 := by
    have hstored := hstores.stored sampleNumber (some 3) (by decide +kernel)
      (lastIn_sampleNumber (by decide +kernel))
    rw [show (samplePlan .compiled).taken? samplePlatform calledWorld sampleNumber (some 3) =
      some (.long 7) by decide +kernel] at hstored
    exact (Option.some.inj hstored).symm
  have harray : w₁.objects 2 = some (.array "java/lang/Object" (List.replicate 301 (some 3))) :=
    hstores.objects 2 _ (by decide +kernel)
  have hroom : ∀ b ∈ (samplePlan .compiled).rule.bindings, b.saves = true →
      (samplePlan .compiled).Savable samplePlatform w₁ 0 (some 2) b := by
    have honly : ∀ b ∈ (samplePlan .compiled).rule.bindings, b.saves = true → b = sampleNumber := by
      decide
    intro b hb hsaves
    obtain rfl := honly b hb hsaves
    refine ⟨2, _, _, rfl, harray, by decide +kernel, ?_⟩
    rw [hcount]
    show samplePlatform.isInstance (.box ((samplePlan .compiled).rule.fieldType sampleNumber)
      (.long 7)) "java/lang/Object" = true
    decide +kernel
  obtain ⟨w₃, calls, hsaves, honce, hcompletes⟩ := hrest w₁ rfl
    (hstores.objects.ne_none (by decide +kernel)) hroom
  obtain ⟨r, hr, hshows⟩ := hsaves.saved sampleNumber (by decide)
    (lastIn_sampleNumber (by decide +kernel))
  rw [hcount] at hshows
  have hfirst : w₁.element? (some 2) 0 = some (some 3) := by
    simp only [World.element?, Option.bind_some, harray]
    rfl
  exact ⟨d, body, w₃, calls, r, hdraft, hbody, by decide +kernel, by decide +kernel, hcompletes,
    honce, hr, hshows, (hsaves.others 0 (by decide)).trans hfirst⟩

end AdapterPlan

end ClassForge
