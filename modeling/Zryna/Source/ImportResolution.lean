import Mathlib.Data.List.Infix
import Zryna.Foundation.Checked
import Zryna.SourcePath

/-!
# Import resolution

What `resolveExplicitZryImport` accepts, and what it resolves to. A specifier is read as the list of
its components. `StaysInside` says by counting that a walk along them never leaves the workspace,
and `walk` says where it ends; `resolveComponents` does both at once. The string filter is a
property of the components too (`specifier_intercalate`), and so a component with the way back
behind it can be left out.
-/

namespace Zryna

open List

/-! ### Walks -/

/-- The steps up and the steps down of a walk. -/
def ascents (components : List (List Char)) : ℕ := components.count "..".toList
def descents (components : List (List Char)) : ℕ :=
  components.countP fun component => component ≠ ".".toList ∧ component ≠ "..".toList

/-- From this depth on, no beginning of the walk leads above the root. -/
def StaysInside (depth : ℕ) (components : List (List Char)) : Prop :=
  ∀ n, ascents (components.take n) ≤ depth + descents (components.take n)

def walkStep (directory : List (List Char)) (component : List Char) : List (List Char) :=
  if component = ".".toList then directory
  else if component = "..".toList then directory.dropLast
  else directory ++ [component]

/-- Where a walk ends. -/
def walk (directory components : List (List Char)) : List (List Char) :=
  components.foldl walkStep directory

section Walks

variable {depth : ℕ} {components : List (List Char)} {component : List Char}

theorem staysInside_nil : StaysInside depth [] := fun n => by
  rw [take_nil]
  exact Nat.zero_le _

theorem staysInside_cons : StaysInside depth (component :: components) ↔
    ∀ n, ascents (component :: components.take n)
      ≤ depth + descents (component :: components.take n) := by
  constructor
  · exact fun h n => h (n + 1)
  · intro h n
    cases n with
    | zero => exact Nat.zero_le _
    | succ n => exact h n

theorem staysInside_current :
    StaysInside depth (".".toList :: components) ↔ StaysInside depth components := by
  rw [staysInside_cons]
  simp [ascents, descents, StaysInside]

theorem staysInside_parent : StaysInside depth ("..".toList :: components) ↔
    0 < depth ∧ StaysInside (depth - 1) components := by
  have hcount (n : ℕ) : ascents ("..".toList :: components.take n)
      = ascents (components.take n) + 1 := count_cons_self
  have hdescents (n : ℕ) : descents ("..".toList :: components.take n)
      = descents (components.take n) := countP_cons_of_neg (by decide)
  simp only [staysInside_cons, hcount, hdescents]
  constructor
  · intro h
    have hpos : 0 < depth := by
      have := h 0
      simp [ascents, descents] at this
      omega
    refine ⟨hpos, fun n => ?_⟩
    have := h n
    omega
  · rintro ⟨hpos, h⟩ n
    have := h n
    omega

theorem staysInside_descent (hcurrent : component ≠ ".".toList)
    (hparent : component ≠ "..".toList) :
    StaysInside depth (component :: components) ↔ StaysInside (depth + 1) components := by
  have hcount (n : ℕ) : ascents (component :: components.take n) = ascents (components.take n) :=
    count_cons_of_ne hparent
  have hdescents (n : ℕ) : descents (component :: components.take n)
      = descents (components.take n) + 1 :=
    countP_cons_of_pos (by simpa using ⟨hcurrent, hparent⟩)
  simp only [staysInside_cons, hcount, hdescents]
  refine forall_congr' fun n => ?_
  rw [Nat.add_assoc, Nat.add_comm 1]

end Walks

/-- Components resolve if and only if none is empty and the walk stays inside; they resolve to its
end. -/
theorem resolveComponents_eq_some {directory components resolved : List (List Char)} :
    resolveComponents directory components = some resolved ↔ [] ∉ components
      ∧ StaysInside directory.length components ∧ walk directory components = resolved := by
  induction components generalizing directory with
  | nil => simp [resolveComponents, walk, staysInside_nil]
  | cons component components ih =>
    have hnamed : [] ≠ ".".toList ∧ [] ≠ "..".toList := by decide
    rw [resolveComponents, walk, foldl_cons, walkStep, mem_cons, not_or]
    split_ifs with hcurrent hparent hroot hempty
    · rw [hcurrent, ih, staysInside_current, and_iff_right hnamed.1, walk]
    · rw [hparent, hroot, staysInside_parent]
      exact iff_of_false nofun fun h => absurd h.2.1.1 (lt_irrefl 0)
    · have hpos := length_pos_of_ne_nil hroot
      rw [hparent, ih, staysInside_parent, and_iff_right hnamed.2, and_iff_right hpos,
        length_dropLast, walk]
    · exact iff_of_false nofun fun h => h.1.1 hempty.symm
    · rw [ih, staysInside_descent hcurrent hparent, and_iff_right (Ne.symm hempty),
        length_append, walk]
      rfl

/-! ### The string filter -/

/-- A character that a specifier may have. -/
def SpecifierCharacter (c : Char) : Prop := c.toNat < 128 ∧ c ∉ ['\\', '?', '#', '\x00']

instance (c : Char) : Decidable (SpecifierCharacter c) := inferInstanceAs (Decidable (_ ∧ _))

/-- The specifiers that are walked at all. -/
structure SpecifierGrammar (cs : List Char) : Prop where
  relative : "./".toList <+: cs ∨ "../".toList <+: cs
  extension : ".zry".toList <:+ cs
  characters : ∀ c ∈ cs, SpecifierCharacter c
  noScheme : ¬"://".toList <:+: cs
  components : [] ∉ cs.splitOn '/'

variable {cs first last x : List Char} {resolved : NormalizedSourcePath}
  {back front : List (List Char)}

theorem filter_iff :
    ¬(¬("./".toList.isPrefixOf cs || "../".toList.isPrefixOf cs) ∨ ¬hasExactZryExtension cs
        ∨ ¬isAscii cs ∨ (cs.any fun c => c ∈ ['\\', '?', '#', '\x00'])
        ∨ cs.tails.any (fun rest => "://".toList.isPrefixOf rest))
      ∧ [] ∉ cs.splitOn '/' ↔ SpecifierGrammar cs := by
  have hscheme : cs.tails.any (fun rest => "://".toList.isPrefixOf rest) = true
      ↔ "://".toList <:+: cs := by
    simp only [any_eq_true, mem_tails, isPrefixOf_iff_prefix]
    constructor
    · rintro ⟨rest, hrest, hscheme⟩
      exact hscheme.isInfix.trans hrest.isInfix
    · rintro ⟨front, back, rfl⟩
      exact ⟨_, ⟨front, (append_assoc ..).symm⟩, prefix_append _ _⟩
  simp only [not_or, not_not, hscheme, Bool.or_eq_true, isPrefixOf_iff_prefix,
    hasExactZryExtension, isSuffixOf_iff_suffix, isAscii, all_eq_true, any_eq_true,
    decide_eq_true_eq, not_exists, not_and]
  rw [← or_iff_not_imp_left]
  constructor
  · rintro ⟨⟨hrelative, hextension, hascii, hallowed, hscheme⟩, hcomponents⟩
    exact ⟨hrelative, hextension, fun c hc => ⟨hascii c hc, hallowed c hc⟩, hscheme, hcomponents⟩
  · rintro ⟨hrelative, hextension, hcharacters, hscheme, hcomponents⟩
    exact ⟨⟨hrelative, hextension, fun c hc => (hcharacters c hc).1,
      fun c hc => (hcharacters c hc).2, hscheme⟩, hcomponents⟩

theorem new_toOption_eq_some {text : List Char} :
    (NormalizedSourcePath.new (String.ofList text)).toOption = some resolved
      ↔ resolved.asStr.toList = text := by
  unfold NormalizedSourcePath.new
  constructor
  · intro h
    split at h
    · cases h
      exact String.toList_ofList
    · cases h
  · rintro rfl
    rw [String.ofList_toList]
    split
    · rfl
    · next error herror => cases herror.symm.trans resolved.valid

/-- A specifier resolves if and only if it has the grammar, its walk stays inside, and the walk ends
at a portable path with the extension. -/
theorem resolveExplicitZryImport_eq_some {importer : NormalizedSourcePath}
    {specifier : String} : resolveExplicitZryImport importer specifier = some resolved ↔
      SpecifierGrammar specifier.toList
      ∧ StaysInside (importer.asStr.toList.splitOn '/').dropLast.length
        (specifier.toList.splitOn '/')
      ∧ ".zry".toList <:+ ['/'].intercalate (walk (importer.asStr.toList.splitOn '/').dropLast
        (specifier.toList.splitOn '/'))
      ∧ resolved.asStr.toList = ['/'].intercalate (walk
        (importer.asStr.toList.splitOn '/').dropLast (specifier.toList.splitOn '/')) := by
  unfold resolveExplicitZryImport
  dsimp only
  rw [Option.ite_none_left_eq_some, Option.bind_eq_some_iff, ← filter_iff]
  simp only [resolveComponents_eq_some, Option.ite_none_left_eq_some, new_toOption_eq_some,
    hasExactZryExtension, isSuffixOf_iff_suffix, not_not]
  constructor
  · rintro ⟨hfilter, _, ⟨hempty, hinside, rfl⟩, hextension, hresolved⟩
    exact ⟨⟨hfilter, hempty⟩, hinside, hextension, hresolved⟩
  · rintro ⟨⟨hfilter, hempty⟩, hinside, hextension, hresolved⟩
    exact ⟨hfilter, _, ⟨hempty, hinside, rfl⟩, hextension, hresolved⟩

/-! ### The filter by components -/

theorem prefix_component {name rest : List Char} (hname : '/' ∉ name) (hfirst : '/' ∉ first) :
    name ++ ['/'] <+: first ++ '/' :: rest ↔ name = first := by
  constructor
  · rintro ⟨tail, h⟩
    rw [append_assoc, singleton_append] at h
    have hsplit := congrArg (List.splitOn '/') h
    rw [splitOn_append_cons_self_of_not_mem hname,
      splitOn_append_cons_self_of_not_mem hfirst] at hsplit
    exact (List.cons.inj hsplit).1
  · rintro rfl
    exact ⟨rest, by rw [append_assoc, singleton_append]⟩

theorem suffix_component {extension front : List Char} (hextension : '/' ∉ extension) :
    extension <:+ front ++ '/' :: last ↔ extension <:+ last := by
  constructor
  · intro h
    obtain hshort | hlong := suffix_or_suffix_of_suffix h (suffix_append front _)
    · obtain rfl | h := suffix_cons_iff.mp hshort
      · exact absurd mem_cons_self hextension
      · exact h
    · exact absurd (hlong.subset mem_cons_self) hextension
  · exact fun h => (h.trans (suffix_cons _ _)).trans (suffix_append _ _)

theorem intercalate_concat {components : List (List Char)} (h : components ≠ [])
    (last : List Char) : ['/'].intercalate (components ++ [last])
      = ['/'].intercalate components ++ '/' :: last := by
  induction components with
  | nil => exact absurd rfl h
  | cons first rest ih =>
    cases rest with
    | nil => simp
    | cons second rest =>
      rw [cons_append, cons_append, intercalate_cons_cons, ← cons_append,
        ih (cons_ne_nil _ _), intercalate_cons_cons, append_assoc, append_assoc,
        append_assoc]

theorem forall_mem_intercalate {components : List (List Char)} {P : Char → Prop} (hslash : P '/') :
    (∀ c ∈ ['/'].intercalate components, P c) ↔ ∀ component ∈ components, ∀ c ∈ component, P c := by
  induction components with
  | nil => simp
  | cons first rest ih =>
    cases rest with
    | nil => simp
    | cons second rest =>
      rw [intercalate_cons_cons, forall_mem_append, forall_mem_append, ih,
        forall_mem_cons]
      simp [hslash]

/-- Where no component is empty, no slashes stand side by side. -/
theorem not_scheme_infix (h : [] ∉ cs.splitOn '/') : ¬"://".toList <:+: cs := by
  rintro ⟨front, back, rfl⟩
  have htext : front ++ "://".toList ++ back = (front ++ [':']) ++ '/' :: ([] ++ '/' :: back) := by
    show front ++ [':', '/', '/'] ++ back = _
    simp
  rw [htext, splitOn_append_cons_self, splitOn_append_cons_self_of_not_mem (by simp)] at h
  exact h (mem_append_right _ mem_cons_self)

theorem specifier_intercalate {inner : List (List Char)}
    (hslash : ∀ component ∈ first :: inner ++ [last], '/' ∉ component) :
    SpecifierGrammar (['/'].intercalate (first :: inner ++ [last])) ↔
      (first = ".".toList ∨ first = "..".toList) ∧ ".zry".toList <:+ last
      ∧ (∀ component ∈ first :: inner ++ [last], ∀ c ∈ component, SpecifierCharacter c)
      ∧ [] ∉ first :: inner ++ [last] := by
  have hsplit := splitOn_intercalate '/' hslash (by simp)
  have hfirst : '/' ∉ first := hslash first (by simp)
  have hrelative : ("./".toList <+: ['/'].intercalate (first :: inner ++ [last])
      ∨ "../".toList <+: ['/'].intercalate (first :: inner ++ [last]))
      ↔ first = ".".toList ∨ first = "..".toList := by
    have hcurrent : "./".toList = ".".toList ++ ['/'] := by decide
    have hparent : "../".toList = "..".toList ++ ['/'] := by decide
    rw [cons_append, intercalate_cons_of_ne_nil (by simp), append_assoc,
      singleton_append, hcurrent, hparent, prefix_component (by decide) hfirst,
      prefix_component (by decide) hfirst, @eq_comm _ ".".toList first,
      @eq_comm _ "..".toList first]
  have hextension : ".zry".toList <:+ ['/'].intercalate (first :: inner ++ [last])
      ↔ ".zry".toList <:+ last := by
    rw [intercalate_concat (cons_ne_nil _ _), suffix_component (by decide)]
  have hcharacters := @forall_mem_intercalate (first :: inner ++ [last]) SpecifierCharacter
    ⟨by decide, by decide⟩
  constructor
  · intro h
    exact ⟨hrelative.mp h.relative, hextension.mp h.extension, hcharacters.mp h.characters,
      hsplit ▸ h.components⟩
  · rintro ⟨hfirst, hlast, hall, hempty⟩
    rw [← hsplit] at hempty
    exact ⟨hrelative.mpr hfirst, hextension.mpr hlast, hcharacters.mpr hall,
      not_scheme_infix hempty, hempty⟩

/-! ### Both sides of a detour -/

/-- A component that names something. -/
structure Ordinary (component : List Char) : Prop where
  ne_nil : component ≠ []
  ne_current : component ≠ ".".toList
  ne_parent : component ≠ "..".toList
  slash : '/' ∉ component

theorem staysInside_detour {depth : ℕ}
    (hx : Ordinary x) : StaysInside depth (front ++ x :: "..".toList :: back)
      ↔ StaysInside depth (front ++ back) := by
  induction front generalizing depth with
  | nil =>
    rw [nil_append, nil_append, staysInside_descent hx.ne_current hx.ne_parent,
      staysInside_parent, Nat.add_sub_cancel, and_iff_right (Nat.succ_pos depth)]
  | cons component front ih =>
    rw [cons_append, cons_append]
    by_cases hcurrent : component = ".".toList
    · rw [hcurrent, staysInside_current, staysInside_current, ih]
    by_cases hparent : component = "..".toList
    · rw [hparent, staysInside_parent, staysInside_parent, ih]
    · rw [staysInside_descent hcurrent hparent, staysInside_descent hcurrent hparent, ih]

theorem walk_detour {directory : List (List Char)} (hx : Ordinary x) :
    walk directory (front ++ x :: "..".toList :: back) = walk directory (front ++ back) := by
  have hdetour (directory : List (List Char)) :
      walkStep (walkStep directory x) "..".toList = directory := by
    rw [walkStep, if_neg (by decide), if_pos rfl, walkStep, if_neg hx.ne_current,
      if_neg hx.ne_parent, dropLast_concat]
  simp only [walk, foldl_append, foldl_cons, hdetour]

/-- The specifier with these components. -/
def specifierOf (components : List (List Char)) : String :=
  String.ofList (['/'].intercalate components)

theorem toList_specifierOf (components : List (List Char)) :
    (specifierOf components).toList = ['/'].intercalate components := String.toList_ofList

theorem components_specifierOf {components : List (List Char)} (hne : components ≠ [])
    (hslash : ∀ component ∈ components, '/' ∉ component) :
    (specifierOf components).toList.splitOn '/' = components := by
  rw [toList_specifierOf]
  exact splitOn_intercalate '/' hslash hne

variable {component : List Char}

theorem slash_of_mem_splitOn (h : component ∈ cs.splitOn '/') : '/' ∉ component := by
  induction cs generalizing component with
  | nil =>
    rw [splitOn_nil, mem_singleton] at h
    exact h ▸ not_mem_nil
  | cons c cs ih =>
    rw [splitOn_cons_eq_if_modifyHead] at h
    obtain ⟨first, rest, hsplit⟩ := exists_cons_of_ne_nil (splitOn_ne_nil '/' cs)
    rw [hsplit] at h ih
    split at h
    · obtain rfl | h := mem_cons.mp h
      · exact not_mem_nil
      · exact ih h
    · next hc =>
      obtain rfl | h := mem_cons.mp h
      · rw [mem_cons, not_or]
        exact ⟨fun heq => hc (by rw [← heq]; decide), ih mem_cons_self⟩
      · exact ih (mem_cons_of_mem _ h)

/-- A detour inside a specifier makes no difference. -/
theorem resolve_detour (importer : NormalizedSourcePath) (hfront : front ≠ []) (hback : back ≠ [])
    (hx : Ordinary x) (hcharacters : ∀ c ∈ x, SpecifierCharacter c)
    (hslash : ∀ component ∈ front ++ back, '/' ∉ component) :
    resolveExplicitZryImport importer (specifierOf (front ++ x :: "..".toList :: back))
      = resolveExplicitZryImport importer (specifierOf (front ++ back)) := by
  have hslash' : ∀ component ∈ front ++ x :: "..".toList :: back, '/' ∉ component := by
    intro component hcomponent
    simp only [mem_append, mem_cons] at hcomponent
    obtain h | rfl | rfl | h := hcomponent
    · exact hslash component (mem_append_left _ h)
    · exact hx.slash
    · decide
    · exact hslash component (mem_append_right _ h)
  have hgrammar : SpecifierGrammar (specifierOf (front ++ x :: "..".toList :: back)).toList
      ↔ SpecifierGrammar (specifierOf (front ++ back)).toList := by
    obtain ⟨first, front, rfl⟩ := exists_cons_of_ne_nil hfront
    obtain ⟨back, last, rfl⟩ : ∃ back' last, back = back' ++ [last] :=
      ⟨_, _, (dropLast_concat_getLast hback).symm⟩
    have hdetour : first :: front ++ x :: "..".toList :: (back ++ [last])
        = first :: (front ++ x :: "..".toList :: back) ++ [last] := by simp
    have hdirect : first :: front ++ (back ++ [last]) = first :: (front ++ back) ++ [last] := by
      simp
    rw [hdetour] at hslash' ⊢
    rw [hdirect] at hslash ⊢
    rw [toList_specifierOf, toList_specifierOf, specifier_intercalate hslash',
      specifier_intercalate hslash]
    have hdots : ∀ c ∈ "..".toList, SpecifierCharacter c := forall_mem_cons.mpr
      ⟨by decide, forall_mem_singleton.mpr (by decide)⟩
    have hnamed : [] ≠ "..".toList := by decide
    have hall : (∀ component ∈ first :: (front ++ x :: "..".toList :: back) ++ [last],
        ∀ c ∈ component, SpecifierCharacter c)
        ↔ ∀ component ∈ first :: (front ++ back) ++ [last], ∀ c ∈ component,
          SpecifierCharacter c := by
      simp only [cons_append, forall_mem_cons, forall_mem_append,
        iff_true_intro hcharacters, iff_true_intro hdots, true_and]
    have hempty : [] ∉ first :: (front ++ x :: "..".toList :: back) ++ [last]
        ↔ [] ∉ first :: (front ++ back) ++ [last] := by
      simp [hx.ne_nil.symm]
    rw [hall, hempty]
  ext resolved
  rw [resolveExplicitZryImport_eq_some, resolveExplicitZryImport_eq_some, hgrammar,
    components_specifierOf (by simp) hslash', components_specifierOf (by simp [hfront]) hslash,
    staysInside_detour hx, walk_detour hx]

theorem mem_walk {directory components : List (List Char)}
    (h : component ∈ walk directory components) :
    component ∈ directory ∨ component ∈ components := by
  induction components generalizing directory with
  | nil => exact .inl h
  | cons first components ih =>
    rw [walk, foldl_cons] at h
    obtain h | h := ih h
    · unfold walkStep at h
      split_ifs at h
      · exact .inl h
      · exact .inl (mem_of_mem_dropLast h)
      · refine (mem_append.mp h).imp_right fun h => ?_
        rw [mem_singleton.mp h]
        exact mem_cons_self
    · exact .inr (mem_cons_of_mem _ h)

/-- A portable path has no component that stands for a directory above or the same one. -/
theorem NormalizedSourcePath.component_named (path : NormalizedSourcePath)
    (h : component ∈ path.asStr.toList.splitOn '/') :
    component ≠ ".".toList ∧ component ≠ "..".toList := by
  have hvalid := path.valid
  unfold validateSourcePath at hvalid
  simp only [Checked.ite_error_eq_ok] at hvalid
  have hcomponent := Checked.forM_eq_ok.mp hvalid.2.2.2.2.2.2 component h
  unfold validateComponent at hcomponent
  rw [Checked.ite_error_eq_ok, Checked.ite_error_eq_ok, not_or] at hcomponent
  exact hcomponent.2.1

/-- Import resolution is lexically exact and never leaves the workspace. A specifier resolves if and
only if it has the grammar, its walk from the directory of the importer stays inside, and the walk
ends at a portable path with the extension. That path is what it resolves to, without a component
that stands for a directory above or the same one. A detour down and back makes no difference to a
specifier that resolves, and inside a specifier none at all. -/
theorem resolveExplicitZryImport_exact (importer : NormalizedSourcePath) (specifier : String) :
    let directory := (importer.asStr.toList.splitOn '/').dropLast
    let components := specifier.toList.splitOn '/'
    let path := ['/'].intercalate (walk directory components)
    ((∃ resolved, resolveExplicitZryImport importer specifier = some resolved) ↔
      SpecifierGrammar specifier.toList ∧ StaysInside directory.length components
        ∧ validateSourcePath (String.ofList path) = .ok () ∧ ".zry".toList <:+ path)
    ∧ (∀ resolved, resolveExplicitZryImport importer specifier = some resolved →
      resolved.asStr.toList.splitOn '/' = walk directory components
      ∧ ∀ component ∈ walk directory components, component ≠ ".".toList ∧ component ≠ "..".toList)
    ∧ (∀ front x back, Ordinary x → components = front ++ x :: "..".toList :: back →
      ∀ resolved, resolveExplicitZryImport importer specifier = some resolved →
        resolveExplicitZryImport importer (specifierOf (front ++ back)) = some resolved)
    ∧ ∀ front x back, Ordinary x → (∀ c ∈ x, SpecifierCharacter c) → front ≠ [] → back ≠ [] →
      components = front ++ back →
        resolveExplicitZryImport importer (specifierOf (front ++ x :: "..".toList :: back))
          = resolveExplicitZryImport importer specifier := by
  intro directory components path
  have hslash : ∀ component ∈ components, '/' ∉ component := fun _ h => slash_of_mem_splitOn h
  have hspecifier : specifierOf components = specifier := by
    rw [specifierOf, intercalate_splitOn, String.ofList_toList]
  refine ⟨⟨?_, ?_⟩, fun resolved h => ?_, fun front x back hx hdetour resolved h => ?_,
    fun front x back hx hcharacters hfront hback hdirect => ?_⟩
  · rintro ⟨resolved, h⟩
    obtain ⟨hgrammar, hinside, hextension, hresolved⟩ := resolveExplicitZryImport_eq_some.mp h
    change resolved.asStr.toList = path at hresolved
    refine ⟨hgrammar, hinside, ?_, hextension⟩
    rw [← hresolved, String.ofList_toList]
    exact resolved.valid
  · rintro ⟨hgrammar, hinside, hvalid, hextension⟩
    exact ⟨⟨_, hvalid⟩, resolveExplicitZryImport_eq_some.mpr
      ⟨hgrammar, hinside, hextension, String.toList_ofList⟩⟩
  · obtain ⟨-, -, hextension, hresolved⟩ := resolveExplicitZryImport_eq_some.mp h
    change resolved.asStr.toList = path at hresolved
    have hwalk : walk directory components ≠ [] := by
      intro hnil
      change ".zry".toList <:+ ['/'].intercalate (walk directory components) at hextension
      rw [hnil] at hextension
      exact absurd (suffix_nil.mp hextension) (by decide)
    have hsplit : resolved.asStr.toList.splitOn '/' = walk directory components := by
      rw [hresolved]
      refine splitOn_intercalate '/' (fun component hcomponent => ?_) hwalk
      obtain hcomponent | hcomponent := mem_walk hcomponent
      · exact slash_of_mem_splitOn (mem_of_mem_dropLast hcomponent)
      · exact hslash component hcomponent
    exact ⟨hsplit, fun component hcomponent => resolved.component_named (hsplit ▸ hcomponent)⟩
  · obtain ⟨hgrammar, -⟩ := resolveExplicitZryImport_eq_some.mp h
    have hlist : specifier.toList = ['/'].intercalate (front ++ x :: "..".toList :: back) := by
      rw [← hdetour]
      exact (intercalate_splitOn ..).symm
    rw [hdetour] at hslash
    rw [hlist] at hgrammar
    -- what resolves neither starts nor ends with the detour
    have hfront : front ≠ [] := by
      rintro rfl
      cases back using List.reverseRecOn with
      | nil =>
        have := (@specifier_intercalate _ _ [] hslash).mp hgrammar
        exact this.1.elim hx.ne_current hx.ne_parent
      | append_singleton back last =>
        have := (@specifier_intercalate _ _ ("..".toList :: back) hslash).mp hgrammar
        exact this.1.elim hx.ne_current hx.ne_parent
    have hback : back ≠ [] := by
      rintro rfl
      obtain ⟨first, front, rfl⟩ := exists_cons_of_ne_nil hfront
      have heq : first :: front ++ [x, "..".toList] = first :: (front ++ [x]) ++ ["..".toList] := by
        simp
      rw [heq] at hslash hgrammar
      have := (specifier_intercalate hslash).mp hgrammar
      exact absurd this.2.1 (by decide)
    have hcharacters : ∀ c ∈ x, SpecifierCharacter c :=
      (forall_mem_intercalate ⟨by decide, by decide⟩).mp hgrammar.characters x (by simp)
    have hslash' : ∀ component ∈ front ++ back, '/' ∉ component := fun component hcomponent => by
      refine hslash component ?_
      simp only [mem_append, mem_cons] at hcomponent ⊢
      exact hcomponent.imp_right fun hback => .inr (.inr hback)
    rw [← resolve_detour importer hfront hback hx hcharacters hslash', ← hdetour, hspecifier, h]
  · rw [resolve_detour importer hfront hback hx hcharacters (hdirect ▸ hslash), ← hdirect,
      hspecifier]

private def nestedMain : NormalizedSourcePath := ⟨"src/nested/main.zry", by decide⟩

/-- A detour through a directory that is no portable component. -/
theorem resolveExplicitZryImport_exact_detour :
    resolveExplicitZryImport nestedMain (specifierOf [".".toList, "con".toList, "..".toList,
      "dep.zry".toList]) = resolveExplicitZryImport nestedMain "./dep.zry" :=
  (resolveExplicitZryImport_exact nestedMain "./dep.zry").2.2.2 [".".toList] "con".toList
    ["dep.zry".toList] ⟨by decide, by decide, by decide, by decide⟩
    (forall_mem_cons.mpr ⟨by decide, forall_mem_cons.mpr
      ⟨by decide, forall_mem_singleton.mpr (by decide)⟩⟩)
    (by decide) (by decide) (by decide)

end Zryna
