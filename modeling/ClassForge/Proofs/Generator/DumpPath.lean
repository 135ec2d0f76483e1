import ClassForge.Generator.DumpPath
import Mathlib.Data.List.Basic
import Mathlib.Data.List.TakeWhile

/-!
# Where dump paths lead

A path is read as its components: what stands between slashes, without empty parts and without `.`
behind the first one. Two paths lead to the same place if they agree on these and on the slash at
their front.

* `DumpPath.Route`, `DumpPath.route` — what a path is read as;
* `DumpPath.push` — a path with one more part, from its front;
* `route_push` — **PROVED**: a part without slashes is one more component, or none if it is empty;
* `withClassExtension_reverse_push` — **PROVED**: where the last part has no dot, the extension is
  added to it;
* `route_ofName` — **PROVED**: the path of a class name without dots is the directory extended by
  the parts of the name, the last one with the extension.
-/

namespace ClassForge.DumpPath

/-! ### Segments -/

theorem segments_ne_nil (text : List Char) : segments text ≠ [] := by
  cases text with
  | nil => simp [segments]
  | cons c cs =>
    rw [segments]
    split
    · simp
    · split <;> simp

theorem segments_cons_of_ne {c : Char} (hc : c ≠ '/') {cs first : List Char}
    {rest : List (List Char)} (h : segments cs = first :: rest) :
    segments (c :: cs) = (c :: first) :: rest := by
  rw [segments, if_neg hc, h]

/-- What stands behind a slash starts anew. -/
theorem segments_append_slash (xs ys : List Char) :
    segments (xs ++ '/' :: ys) = segments xs ++ segments ys := by
  induction xs with
  | nil => simp [segments]
  | cons c cs ih =>
    by_cases hc : c = '/'
    · subst hc
      rw [List.cons_append, segments, if_pos rfl, ih, segments, if_pos rfl]
      rfl
    · obtain ⟨first, rest, hsegs⟩ := List.exists_cons_of_ne_nil (segments_ne_nil cs)
      rw [hsegs] at ih
      rw [List.cons_append, segments_cons_of_ne hc ih, segments_cons_of_ne hc hsegs]
      rfl

/-- A text without slashes belongs to the last segment before it. -/
theorem segments_append {ys : List Char} (hys : '/' ∉ ys) (xs : List Char) :
    ∃ packages last, segments xs = packages ++ [last] ∧
      segments (xs ++ ys) = packages ++ [last ++ ys] := by
  induction xs with
  | nil =>
    refine ⟨[], [], rfl, ?_⟩
    induction ys with
    | nil => rfl
    | cons c cs ih =>
      have hc : c ≠ '/' := fun heq => hys (heq ▸ List.mem_cons_self)
      have hsegs := ih fun hmem => hys (List.mem_cons_of_mem c hmem)
      exact segments_cons_of_ne hc hsegs
  | cons c cs ih =>
    obtain ⟨packages, last, hcs, happend⟩ := ih
    by_cases hc : c = '/'
    · subst hc
      refine ⟨[] :: packages, last, ?_, ?_⟩
      · rw [segments, if_pos rfl, hcs]
        rfl
      · rw [List.cons_append, segments, if_pos rfl, happend]
        rfl
    · cases packages with
      | nil =>
        exact ⟨[], c :: last, segments_cons_of_ne hc hcs, segments_cons_of_ne hc happend⟩
      | cons first packages =>
        exact ⟨(c :: first) :: packages, last, segments_cons_of_ne hc hcs,
          segments_cons_of_ne hc happend⟩

theorem segments_of_no_slash {ys : List Char} (hys : '/' ∉ ys) : segments ys = [ys] := by
  obtain ⟨packages, last, hnil, hsegs⟩ := segments_append hys []
  obtain ⟨rfl, hlast⟩ := List.append_eq_singleton_iff.1 hnil.symm |>.resolve_right nofun
  cases hlast
  exact hsegs

/-- The characters of a segment are characters of the text, and none of them is a slash. -/
theorem mem_of_mem_segments {text part : List Char} {c : Char} (hpart : part ∈ segments text)
    (hc : c ∈ part) : c ∈ text ∧ c ≠ '/' := by
  induction text generalizing part with
  | nil =>
    rw [segments, List.mem_singleton] at hpart
    subst hpart
    cases hc
  | cons d ds ih =>
    by_cases hd : d = '/'
    · subst hd
      rw [segments, if_pos rfl, List.mem_cons] at hpart
      rcases hpart with rfl | hpart
      · cases hc
      · exact ⟨List.mem_cons_of_mem _ (ih hpart hc).1, (ih hpart hc).2⟩
    · obtain ⟨first, rest, hsegs⟩ := List.exists_cons_of_ne_nil (segments_ne_nil ds)
      rw [segments_cons_of_ne hd hsegs, List.mem_cons] at hpart
      have hrec : ∀ q, q ∈ segments ds → c ∈ q → c ∈ d :: ds ∧ c ≠ '/' := fun q hq hcq =>
        ⟨List.mem_cons_of_mem _ (ih hq hcq).1, (ih hq hcq).2⟩
      rcases hpart with rfl | hpart
      · rcases List.mem_cons.1 hc with rfl | hc
        · exact ⟨List.mem_cons_self, hd⟩
        · exact hrec first (hsegs ▸ List.mem_cons_self) hc
      · exact hrec part (hsegs ▸ List.mem_cons_of_mem _ hpart) hc

/-! ### Routes -/

/-- What a path is read as. -/
structure Route where
  /-- Does the path start with a slash? -/
  rooted : Bool
  components : List (List Char)
deriving DecidableEq

/-- Segments that lead nowhere: empty ones and `.`. -/
def isIdle (part : List Char) : Bool := part = [] ∨ part = ['.']

/-- The components of a path. A `.` counts at its front only. -/
def components (path : List Char) : List (List Char) :=
  match segments path with
  | [] => []
  | first :: rest => (if first = [] then [] else [first]) ++ rest.filter (!isIdle ·)

/-- What a path is read as. -/
def route (path : List Char) : Route := ⟨path.head? == some '/', components path⟩

/-- The route that goes on by further components. -/
def Route.extend (r : Route) (more : List (List Char)) : Route :=
  { r with components := r.components ++ more }

theorem components_append_slash (path : List Char) {part : List Char} (hpart : '/' ∉ part) :
    components (path ++ '/' :: part) = components path ++ [part].filter (!isIdle ·) := by
  obtain ⟨first, rest, hsegs⟩ := List.exists_cons_of_ne_nil (segments_ne_nil path)
  unfold components
  rw [segments_append_slash, segments_of_no_slash hpart, hsegs]
  simp only [List.cons_append, List.filter_append, List.append_assoc]

/-- A slash at the end leads nowhere else. -/
theorem components_append_nil (path : List Char) :
    components (path ++ ['/']) = components path := by
  rw [components_append_slash path List.not_mem_nil]
  exact List.append_nil _

theorem components_of_no_slash {part : List Char} (hpart : '/' ∉ part) :
    components part = if part = [] then [] else [part] := by
  unfold components
  rw [segments_of_no_slash hpart]
  exact List.append_nil _

/-! ### Parts -/

/-- A path with one more part; a slash goes between unless there is one. -/
def push (path part : List Char) : List Char := (pushPart path.reverse part).reverse

theorem push_nil (part : List Char) : push [] part = part := by
  simp [push, pushPart]

theorem push_slash (path part : List Char) : push (path ++ ['/']) part = path ++ '/' :: part := by
  simp [push, pushPart]

theorem push_of_ne {c : Char} (hc : c ≠ '/') (path part : List Char) :
    push (path ++ [c]) part = path ++ c :: '/' :: part := by
  unfold push
  rw [List.reverse_append]
  show (pushPart (c :: path.reverse) part).reverse = _
  unfold pushPart
  split
  · rename_i h
    cases h
  · rename_i h
    cases h
    exact absurd rfl hc
  · simp

/-- **The three ways to add a part**: to nothing, behind a slash, and with a slash in between. -/
theorem push_cases (path part : List Char) :
    path = [] ∧ push path part = part ∨
      (∃ dir, path = dir ++ ['/'] ∧ push path part = dir ++ '/' :: part) ∨
      path ≠ [] ∧ push path part = path ++ '/' :: part := by
  rcases List.eq_nil_or_concat' path with rfl | ⟨dir, c, rfl⟩
  · exact .inl ⟨rfl, push_nil part⟩
  · by_cases hc : c = '/'
    · subst hc
      exact .inr (.inl ⟨dir, rfl, push_slash dir part⟩)
    · refine .inr (.inr ⟨by simp, ?_⟩)
      rw [push_of_ne hc]
      simp

/-- A part is added at the end. -/
theorem push_append (path part more : List Char) :
    push path (part ++ more) = push path part ++ more := by
  unfold push pushPart
  split <;> simp

theorem suffix_push (path part : List Char) : part <:+ push path part := by
  have happend := push_append path [] part
  rw [List.nil_append] at happend
  exact ⟨_, happend.symm⟩

/-- **A part without slashes is one more component**, or none if it is empty. -/
theorem route_push (path : List Char) {part : List Char} (hslash : '/' ∉ part)
    (hdot : part ≠ ['.']) :
    route (push path part) = (route path).extend ([part].filter (· ≠ [])) := by
  have hidle : [part].filter (!isIdle ·) = [part].filter (· ≠ []) := by
    rw [List.filter_singleton, List.filter_singleton]
    simp [isIdle, hdot]
  unfold route Route.extend
  rcases push_cases path part with ⟨rfl, hpush⟩ | ⟨dir, rfl, hpush⟩ | ⟨hne, hpush⟩
  · rw [hpush, components_of_no_slash hslash]
    have hhead : part.head? ≠ some '/' := fun h => hslash (List.mem_of_mem_head? h)
    by_cases hnil : part = [] <;> simp [hnil, hhead, components, segments]
  · rw [hpush, components_append_slash dir hslash, components_append_nil, hidle]
    simp
  · rw [hpush, components_append_slash path hslash, hidle]
    obtain ⟨c, cs, rfl⟩ := List.exists_cons_of_ne_nil hne
    simp

/-- **Parts without slashes are the further components**, as far as they are not empty. -/
theorem route_foldl_push {parts : List (List Char)} (path : List Char)
    (hparts : ∀ part ∈ parts, '/' ∉ part ∧ part ≠ ['.']) :
    route (parts.foldl push path) = (route path).extend (parts.filter (· ≠ [])) := by
  induction parts generalizing path with
  | nil => simp [Route.extend]
  | cons part parts ih =>
    obtain ⟨hpart, hrest⟩ := List.forall_mem_cons.1 hparts
    rw [List.foldl_cons, ih _ hrest, route_push path hpart.1 hpart.2]
    simp only [Route.extend, List.append_assoc, ← List.filter_append, List.singleton_append]

theorem foldl_pushPart (parts : List (List Char)) (path : List Char) :
    parts.foldl pushPart path.reverse = (parts.foldl push path).reverse := by
  induction parts generalizing path with
  | nil => rfl
  | cons part parts ih =>
    have hpush : pushPart path.reverse part = (push path part).reverse := by simp [push]
    rw [List.foldl_cons, List.foldl_cons, hpush, ih]

/-! ### The extension -/

/-- The last part stands behind a slash, or nothing stands before it. -/
theorem exists_push_eq (path part : List Char) :
    ∃ dir, push path part = dir ++ part ∧ ∀ c ∈ dir.getLast?, c = '/' := by
  rcases push_cases path part with ⟨-, hpush⟩ | ⟨dir, -, hpush⟩ | ⟨-, hpush⟩
  · exact ⟨[], hpush, nofun⟩
  · exact ⟨dir ++ ['/'], by simp [hpush], by simp⟩
  · exact ⟨path ++ ['/'], by simp [hpush], by simp⟩

theorem skipIdle_of_ne {c : Char} (hslash : c ≠ '/') (hdot : c ≠ '.') (cs : List Char) :
    skipIdle (c :: cs) = c :: cs := by
  rw [skipIdle]
  · intro rest h
    cases h
    exact hslash rfl
  · intro rest h
    cases h
    exact hdot rfl

/-- A name without dots is its own stem. -/
theorem stem_of_no_dot {name : List Char} (h : '.' ∉ name) : stem name = name := by
  have hdrop : name.dropWhile (· ≠ '.') = [] := by
    rw [List.dropWhile_eq_nil_iff]
    intro c hc
    have hne : c ≠ '.' := fun heq => h (heq ▸ hc)
    exact decide_eq_true hne
  unfold stem
  rw [hdrop]

/-- The characters before the first slash of a backwards path. -/
theorem span_backwards {part dir : List Char} (hpart : '/' ∉ part)
    (hdir : ∀ c ∈ dir.getLast?, c = '/') :
    (part.reverse ++ dir.reverse).takeWhile (· ≠ '/') = part.reverse ∧
      (part.reverse ++ dir.reverse).dropWhile (· ≠ '/') = dir.reverse := by
  have hall : ∀ c ∈ part.reverse, decide (c ≠ '/') = true := by
    intro c hc
    have hne : c ≠ '/' := fun heq => hpart (heq ▸ List.mem_reverse.1 hc)
    exact decide_eq_true hne
  rw [List.takeWhile_append_of_pos hall, List.dropWhile_append_of_pos hall]
  rcases List.eq_nil_or_concat' dir with rfl | ⟨init, c, rfl⟩
  · simp
  · obtain rfl := hdir c (by simp)
    simp

/-- **A last part without dots gets the extension.** -/
theorem withClassExtension_reverse_push (path : List Char) {part : List Char} (hne : part ≠ [])
    (hslash : '/' ∉ part) (hdot : '.' ∉ part) :
    (withClassExtension (push path part).reverse).reverse =
      push path (part ++ ".class".toList) := by
  obtain ⟨dir, hpush, hdir⟩ := exists_push_eq path part
  rw [push_append, hpush, List.reverse_append]
  obtain ⟨htake, hdrop⟩ := span_backwards hslash hdir
  have hskip : skipIdle (part.reverse ++ dir.reverse) = part.reverse ++ dir.reverse := by
    obtain ⟨c, cs, hcs⟩ := List.exists_cons_of_ne_nil (List.reverse_ne_nil_iff.2 hne)
    have hmem : c ∈ part := List.mem_reverse.1 (hcs ▸ List.mem_cons_self)
    rw [hcs, List.cons_append]
    exact skipIdle_of_ne (fun h => hslash (h ▸ hmem)) (fun h => hdot (h ▸ hmem)) _
  have hrev : '.' ∉ part.reverse := fun h => hdot (List.mem_reverse.1 h)
  have hname : ¬(part.reverse = [] ∨ part.reverse = ['.'] ∨ part.reverse = ['.', '.']) := by
    rintro (h | h | h)
    · exact hne (List.reverse_eq_nil_iff.1 h)
    · exact hrev (h ▸ List.mem_cons_self)
    · exact hrev (h ▸ List.mem_cons_self)
  unfold withClassExtension
  simp only [hskip, htake, hdrop, if_neg hname, stem_of_no_dot hrev]
  simp only [List.reverse_append, List.reverse_reverse, List.append_assoc]

/-! ### Class names -/

/-- A class name whose path is made up of its segments: there are no dots in it, and the last
segment is not empty. -/
structure IsPlain (name : List Char) (packages : List (List Char)) (last : List Char) : Prop where
  segments : segments name = packages ++ [last]
  dotless : '.' ∉ name
  named : last ≠ []

/-- The components that a class name adds to a path. -/
def added (packages : List (List Char)) (last : List Char) : List (List Char) :=
  packages.filter (· ≠ []) ++ [last ++ ".class".toList]

section ClassNames

variable {name last : List Char} {packages : List (List Char)}

theorem IsPlain.no_slash (h : IsPlain name packages last) {part : List Char}
    (hpart : part ∈ packages ++ [last]) : '/' ∉ part ∧ '.' ∉ part := by
  rw [← h.segments] at hpart
  exact ⟨fun hc => (mem_of_mem_segments hpart hc).2 rfl,
    fun hc => h.dotless (mem_of_mem_segments hpart hc).1⟩

/-- The path of a class, part by part. -/
theorem toList_ofName (dir : String) {name : String} (h : IsPlain name.toList packages last) :
    (ofName dir name).toList =
      push (packages.foldl push dir.toList) (last ++ ".class".toList) := by
  obtain ⟨hslash, hdot⟩ :=
    h.no_slash (List.mem_append_right packages (List.mem_singleton_self last))
  rw [← withClassExtension_reverse_push _ h.named hslash hdot]
  unfold ofName
  rw [String.toList_ofList, h.segments, foldl_pushPart, List.foldl_append]
  rfl

/-- **The path of a class is the directory extended by the parts of its name.** -/
theorem route_ofName (dir : String) {name : String} (h : IsPlain name.toList packages last) :
    route (ofName dir name).toList = (route dir.toList).extend (added packages last) := by
  have hlast : '/' ∉ last := (h.no_slash (List.mem_append_right _ (List.mem_singleton_self _))).1
  have hpackages : ∀ part ∈ packages, '/' ∉ part ∧ part ≠ ['.'] := by
    intro part hpart
    obtain ⟨hslash, hdot⟩ := h.no_slash (List.mem_append_left _ hpart)
    exact ⟨hslash, fun heq => hdot (heq ▸ List.mem_cons_self)⟩
  have hclass : '/' ∉ last ++ ".class".toList := by
    rw [List.mem_append, not_or]
    exact ⟨hlast, by decide⟩
  have hlong : last ++ ".class".toList ≠ ['.'] := by
    intro heq
    have := congrArg List.length heq
    simp at this
  rw [toList_ofName dir h, route_push _ hclass hlong, route_foldl_push _ hpackages]
  simp [Route.extend, added]

/-- No component leads back. -/
theorem IsPlain.added_ne (h : IsPlain name packages last) :
    ∀ part ∈ added packages last, part ≠ ['.'] ∧ part ≠ ['.', '.'] := by
  intro part hpart
  rcases List.mem_append.1 hpart with hpart | hpart
  · obtain ⟨-, hdot⟩ := h.no_slash (List.mem_append_left _ (List.mem_of_mem_filter hpart))
    exact ⟨fun heq => hdot (heq ▸ List.mem_cons_self), fun heq => hdot (heq ▸ List.mem_cons_self)⟩
  · rw [List.mem_singleton] at hpart
    have hlen : 6 ≤ part.length := by
      rw [hpart, List.length_append]
      exact Nat.le_add_left _ _
    constructor <;>
    · rintro rfl
      exact absurd hlen (by decide)

theorem suffix_ofName (dir : String) {name : String} (h : IsPlain name.toList packages last) :
    last ++ ".class".toList <:+ (ofName dir name).toList := by
  rw [toList_ofName dir h]
  exact suffix_push _ _

end ClassNames

end ClassForge.DumpPath
