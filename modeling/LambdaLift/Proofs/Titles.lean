/-
  LambdaLift.Proofs.Titles
  **THE NAMES OF WHAT IS LIFTED.**

  The name of a lifted declaration is composed from the parts of all
  scopes from the root down to it.  A scope that was written with a name
  contributes that; an anonymous function or class contributes a number,
  and no two of a kind below one root have the same.  Lifting gives a
  replacement the name composed for what it replaces, and what is copied
  into a lifted class keeps the name it had.

  Main results:
    * `joined_inj` — parts without the separator can be read off a name;
    * `Site.part_cases` — what a scope contributes to composed names;
    * `Program.Rises.eq_of_parts` — when the parts tell declarations apart.
-/
import Mathlib
import LambdaLift.Proofs.Ownership

namespace LambdaLift

variable {p : Program} {d root : DeclId} {content : Declaration} {name : Name} {i next : Nat}

/-! ## §1. Texts. -/

/-- The parts of a text are those between separators. -/
theorem joined_inj {c : Char} {as bs : List String} (has : ∀ a ∈ as, c ∉ a.toList)
    (hbs : ∀ b ∈ bs, c ∉ b.toList) (hne : as ≠ []) (hne' : bs ≠ [])
    (h : String.intercalate (String.singleton c) as = String.intercalate (String.singleton c) bs) :
    as = bs := by
  have split : ∀ {xs : List String}, (∀ x ∈ xs, c ∉ x.toList) → xs ≠ [] →
      (String.intercalate (String.singleton c) xs).toList.splitOn c = xs.map String.toList := by
    intro xs hxs hxs'
    rw [String.toList_intercalate, String.toList_singleton, List.splitOn_intercalate]
    · intro l hl
      obtain ⟨x, hx, rfl⟩ := List.mem_map.1 hl
      exact hxs x hx
    · simpa using hxs'
  have hlists : as.map String.toList = bs.map String.toList := by
    rw [← split has hne, ← split hbs hne', h]
  exact List.map_injective_iff.2 (fun _ _ => String.toList_inj.1) hlists

/-- The separator stands in a text of two parts or more. -/
theorem mem_joined (c : Char) (a b : String) (rest : List String) :
    c ∈ (String.intercalate (String.singleton c) (a :: b :: rest)).toList := by
  rw [String.toList_intercalate, String.toList_singleton, List.map_cons, List.map_cons,
    List.intercalate_cons_cons]
  simp

/-- Stem and number can be read off a numbered name. -/
theorem numbered_inj {stem stem' : String} {j : Nat}
    (h : stem ++ "-" ++ toString i = stem' ++ "-" ++ toString j) : stem = stem' ∧ i = j := by
  have hlists := congrArg String.toList h
  simp only [String.toList_append] at hlists
  -- the number is what comes after the last dash
  have number : ∀ (l : List Char) (n : Nat),
      ((l ++ "-".toList ++ (toString n).toList).reverse.takeWhile (· ≠ '-')).reverse
      = (toString n).toList := by
    intro l n
    have hdigits : ∀ x ∈ (toString n).toList.reverse, decide (x ≠ '-') = true := by
      intro x hx
      have hdigit := Nat.isDigit_of_mem_toDigits (by decide) (by decide)
        (Nat.toList_repr ▸ List.mem_reverse.1 hx)
      rw [decide_eq_true_eq]
      rintro rfl
      cases hdigit
    rw [List.reverse_append, List.takeWhile_append_of_pos hdigits, List.reverse_append]
    simp
  have hnumber : (toString i).toList = (toString j).toList := by
    rw [← number stem.toList, hlists, number]
  refine ⟨?_, Nat.repr_inj.1 (String.toList_inj.1 hnumber)⟩
  rw [hnumber] at hlists
  exact String.toList_inj.1 (List.append_cancel_right (List.append_cancel_right hlists))

theorem not_mem_numbered {c : Char} {stem : String} (hstem : c ∉ stem.toList) (hdash : c ≠ '-')
    (hdigit : c.isDigit = false) (i : Nat) : c ∉ (stem ++ "-" ++ toString i).toList := by
  intro hmem
  simp only [String.toList_append, List.mem_append] at hmem
  rcases hmem with (hmem | hmem) | hmem
  · exact hstem hmem
  · exact hdash (List.mem_singleton.1 hmem)
  · have hdigits : c ∈ Nat.toDigits 10 i := Nat.toList_repr ▸ hmem
    rw [Nat.isDigit_of_mem_toDigits (by decide) (by decide) hdigits] at hdigit
    cases hdigit

/-! ## §2. The scopes between a declaration and the root. -/

namespace Program

variable {p p' : Program} {container : Option DeclId} {root d : DeclId} {content : Declaration}

/-- Whoever was there has the parent and the name it had. -/
theorem Relists.exists_same (h : p.Relists p') (hd : p.decls.get? d = some content) :
    ∃ content', p'.decls.get? d = some content' ∧ content'.parent = content.parent
      ∧ content'.name = content.name := by
  obtain ⟨content', hd', rfl | ⟨c, ms, rfl, rfl⟩⟩ := h d content hd
  · exact ⟨content', hd', rfl, rfl⟩
  · exact ⟨_, hd', rfl, rfl⟩

/-- A chain that ends is the same line of names in a program that keeps parents and names. -/
theorem Relists.chainFrom (h : p.Relists p') {fuel fuel' : Nat} {d? : Option DeclId}
    (hfuel : fuel ≤ fuel') (hend : (p.chainFrom fuel d?).ending = .atModule) :
    (p'.chainFrom fuel' d?).ending = .atModule
      ∧ ((p'.chainFrom fuel' d?).scopes.map fun s => (s.1, s.2.name))
      = (p.chainFrom fuel d?).scopes.map fun s => (s.1, s.2.name) := by
  induction fuel generalizing fuel' d? with
  | zero =>
    cases d? with
    | none => cases fuel' <;> exact ⟨rfl, rfl⟩
    | some d => cases hend
  | succ fuel ih =>
    cases d? with
    | none => cases fuel' <;> exact ⟨rfl, rfl⟩
    | some d =>
      cases hd : p.decls.get? d with
      | none => simp [Program.chainFrom, hd] at hend
      | some content =>
        obtain ⟨fuel', rfl⟩ : ∃ n, fuel' = n + 1 := ⟨fuel' - 1, by omega⟩
        obtain ⟨content', hd', hparent, hname⟩ := h.exists_same hd
        simp only [Program.chainFrom, hd] at hend
        obtain ⟨hend', hscopes⟩ := ih (show fuel ≤ fuel' by omega) hend
        refine ⟨?_, ?_⟩
        · simpa only [Program.chainFrom, hd', hparent] using hend'
        · simp only [Program.chainFrom, hd, hd', hparent, hname, List.map_cons, hscopes]

/-- A declaration keeps its ancestors and their names. -/
theorem Relists.lineage (h : p.Relists p') (hend : (p.chain d).ending = .atModule) :
    (p'.chain d).ending = .atModule ∧ p'.lineage d = p.lineage d :=
  h.chainFrom (Nat.succ_le_succ h.size_le) hend

/-- The ancestors of a declaration are its parent and the ancestors of that. -/
theorem lineage_cons (hend : (p.chain d).ending = .atModule) (hd : p.decls.get? d = some content) :
    (∀ k ∈ content.parent, (p.chain k).ending = .atModule)
      ∧ p.lineage d = (d, content.name) :: content.parent.elim [] p.lineage := by
  have hstep : p.chain d = ⟨(d, content) :: (p.chainFrom p.decls.size content.parent).scopes,
      (p.chainFrom p.decls.size content.parent).ending⟩ := by
    unfold chain
    rw [Program.chainFrom, hd]
  rw [hstep] at hend
  unfold lineage
  rw [hstep]
  cases hparent : content.parent with
  | none =>
    refine ⟨fun k hk => (by cases hk), ?_⟩
    cases p.decls.size <;> rfl
  | some q =>
    rw [hparent] at hend
    have hsame : p.chain q = p.chainFrom p.decls.size (some q) :=
      chainFrom_of_keeps (.refl p.decls) (Nat.le_succ _) hend
    refine ⟨fun k hk => ?_, ?_⟩
    · obtain rfl : q = k := Option.some.inj hk
      rw [hsame]
      exact hend
    · rw [Option.elim_some, hsame]
      rfl

/-- A declaration comes before its ancestors. -/
theorem exists_lineage (hd : p.decls.get? d = some content) :
    ∃ outer, p.lineage d = (d, content.name) :: outer := by
  unfold lineage chain
  rw [chainFrom, hd]
  exact ⟨_, rfl⟩

/-- A declaration whose chain ends is there. -/
theorem exists_of_ending (hend : (p.chain d).ending = .atModule) :
    ∃ content, p.decls.get? d = some content := by
  cases hd : p.decls.get? d with
  | some content => exact ⟨content, rfl⟩
  | none =>
    unfold chain at hend
    rw [chainFrom, hd] at hend
    cases hend

/-- The ancestors of an ancestor are the rest of the ancestors. -/
theorem lineage_of_append {inner rest : List (DeclId × Name)} {s : DeclId × Name}
    (hend : (p.chain d).ending = .atModule) (hlineage : p.lineage d = inner ++ s :: rest) :
    (p.chain s.1).ending = .atModule ∧ p.lineage s.1 = s :: rest := by
  induction inner generalizing d with
  | nil =>
    obtain ⟨content, hd⟩ := exists_of_ending hend
    have hs := (List.cons.inj ((lineage_cons hend hd).2.symm.trans hlineage)).1
    rw [← hs] at hlineage ⊢
    exact ⟨hend, hlineage⟩
  | cons t inner ih =>
    obtain ⟨content, hd⟩ := exists_of_ending hend
    obtain ⟨hends, hcons⟩ := lineage_cons hend hd
    have htail := (List.cons.inj (hcons.symm.trans hlineage)).2
    cases hparent : content.parent with
    | none =>
      rw [hparent] at htail
      cases inner <;> cases htail
    | some k =>
      rw [hparent] at htail
      exact ih (hends k hparent) htail

/-- **What is reached from a root has the root as its parent**, or something else that is reached
from it. -/
theorem Accounted.parent_of_below (hp : p.Accounted) {c : Option DeclId}
    (h : p.Hosted c (.decl root)) (hroot : p.decls.get? root = some content)
    (hcallable : content.isCallable = true) {place : Place} (hbelow : p.Below root place)
    (hplace : place.filed = .decl d) :
    ∃ k, p.HasParent d (some k) ∧ (k = root ∨ p.Below root (.decl k)) := by
  obtain ⟨content', hroot', part, hpart, hreach⟩ := hbelow
  obtain rfl : content = content' := Option.mem_unique hroot hroot'
  induction hreach generalizing d with
  | refl =>
    -- a callable starts with its body
    cases content with
    | function f =>
      obtain ⟨e, -, rfl⟩ := List.mem_map.1 hpart
      cases hplace
    | constructor x =>
      obtain ⟨e, -, rfl⟩ := List.mem_map.1 hpart
      cases hplace
    | _ => cases hcallable
  | @tail outer inner houter hstep ih =>
    have hbelow : p.Below root outer := ⟨content, hroot, part, hpart, houter⟩
    obtain ⟨g, hg, hinside⟩ := h.of_below hroot hcallable hbelow
    obtain ⟨label, hlabel, hinner⟩ := hstep
    cases label with
    | expr x node =>
      obtain ⟨rfl, hnode⟩ := label?_eq_expr.1 hlabel
      cases node with
      | decl k =>
        obtain rfl : inner = .decl k := by simpa [Label.followed, Label.places] using hinner
        cases hplace
        exact ⟨g, hp.placed hg hnode, hinside⟩
      | _ =>
        obtain ⟨y, hy, rfl⟩ := List.mem_map.1 hinner
        cases hplace
    | decl k inside =>
      obtain ⟨rfl, hk⟩ := label?_eq_decl.1 hlabel
      cases inside with
      | cls x =>
        obtain ⟨m, hm, rfl⟩ := List.mem_map.1 hinner
        cases hplace
        exact ⟨k, hp.listed hg hk hm, .inr hbelow⟩
      | property q =>
        -- the parts of a property stand where it stands
        obtain ⟨k', hk', hinside'⟩ := ih rfl
        have hlisted : d ∈ (Declaration.property q).listed := by
          rcases List.mem_append.1 hinner with hinner | hinner
          · obtain ⟨a, ha, rfl⟩ := List.mem_map.1 hinner
            cases hplace
            simp only [Declaration.listed, List.mem_append] at ha ⊢
            tauto
          · obtain ⟨b, hb, rfl⟩ := List.mem_map.1 hinner
            cases hplace
            simp only [Declaration.listed, List.mem_append]
            exact .inl (.inl hb)
        have hparent := hp.listed hg hk hlisted
        rw [show (Declaration.property q).home k = some k' from hk'.eq hk] at hparent
        exact ⟨k', hparent, hinside'⟩
      | _ =>
        obtain ⟨y, hy, rfl⟩ := List.mem_map.1 hinner
        cases hplace
    | backing k inside =>
      cases inside with
      | field f =>
        obtain ⟨y, hy, rfl⟩ := List.mem_map.1 hinner
        cases hplace
      | _ => cases hinner

/-- The scopes lead up to the root, each to its parent. -/
def Rises (p : Program) (root : DeclId) : List (DeclId × Name) → Prop
  | [] => True
  | s :: rest => (∃ content, p.decls.get? s.1 = some content ∧ content.name = s.2
      ∧ content.parent = some ((rest.head?.map (·.1)).getD root)) ∧ p.Rises root rest

/-- The scopes that lead from a declaration up to the root are all reached from it. -/
structure Way (p : Program) (root d : DeclId) (scopes : List (DeclId × Name)) : Prop where
  head : scopes.head?.map (·.1) = some d
  rises : p.Rises root scopes
  below : ∀ s ∈ scopes, p.Below root (.decl s.1)
  lineage : p.lineage d = scopes ++ p.lineage root

end Program

namespace Lowering.Start

open Program

variable {p : Program} {container : Option DeclId} {root d : DeclId} {site : Site}

/-- **Whatever is reached from a root** has a way up to it. -/
theorem exists_way (hs : Start p container root) (hend : (p.chain d).ending = .atModule)
    (hbelow : p.Below root (.decl d)) : ∃ scopes, p.Way root d scopes := by
  obtain ⟨rootDecl, hroot, hcallable⟩ := hs.callable
  -- by induction on the number of ancestors
  generalize hn : (p.lineage d).length = n
  induction n using Nat.strong_induction_on generalizing d with
  | _ n ih =>
    obtain ⟨k, ⟨content, hd, hparent⟩, hinside⟩ :=
      hs.accounted.parent_of_below hs.root_hosted hroot hcallable hbelow rfl
    obtain ⟨hends, hlineage⟩ := lineage_cons hend hd
    rw [hparent] at hends hlineage
    rcases hinside with rfl | hinside
    · exact ⟨[(d, content.name)], rfl, ⟨⟨content, hd, rfl, hparent⟩, trivial⟩,
        by simpa using hbelow, hlineage⟩
    · have hlt : (p.lineage k).length < n := by
        rw [← hn, hlineage]
        exact Nat.lt_succ_self _
      obtain ⟨scopes, hway⟩ := ih _ hlt (hends k rfl) hinside rfl
      refine ⟨(d, content.name) :: scopes, rfl, ⟨⟨content, hd, rfl, ?_⟩, hway.rises⟩, ?_, ?_⟩
      · rw [hparent, hway.head]
        rfl
      · exact List.forall_mem_cons.2 ⟨hbelow, hway.below⟩
      · rw [hlineage, Option.elim_some, hway.lineage]
        rfl

end Lowering.Start

/-! ## §3. The parts of a composed name. -/

/-- **A composed name** starts with the root and goes on with the scopes below it. -/
theorem Site.parts_eq {site : Site} {rootDecl : Declaration} (hsite : site.root = root)
    (hroot : p.decls.get? root = some rootDecl) (hend : (p.chain d).ending = .atModule)
    {scopes : List (DeclId × Name)} (hlineage : p.lineage d = scopes ++ p.lineage root) :
    site.parts p d = site.part (root, rootDecl.name) :: (scopes.map site.part).reverse := by
  have hdestination : site.destination p = rootDecl.parent := by
    unfold Site.destination
    rw [hsite, hroot]
    rfl
  have hrootEnd : (p.chain root).ending = .atModule := by
    obtain ⟨outer, houter⟩ := Program.exists_lineage hroot
    exact (Program.lineage_of_append hend (hlineage.trans (congrArg (scopes ++ ·) houter))).1
  obtain ⟨hends, hcons⟩ := Program.lineage_cons hrootEnd hroot
  -- the destination has fewer ancestors than anything from the root down
  have houter : ∀ s ∈ scopes ++ [(root, rootDecl.name)], some s.1 ≠ rootDecl.parent := by
    intro s hs hparent
    obtain ⟨inner, rest, hsplit⟩ := List.append_of_mem hs
    have hlineage' : p.lineage d = inner ++ s :: (rest ++ rootDecl.parent.elim [] p.lineage) := by
      rw [hlineage, hcons, List.append_cons, hsplit, List.append_assoc]
      rfl
    obtain ⟨-, houter⟩ := Program.lineage_of_append hend hlineage'
    rw [← hparent, Option.elim_some] at houter
    have hlength := congrArg List.length houter
    simp only [List.length_cons, List.length_append] at hlength
    omega
  have hrest : (rootDecl.parent.elim [] p.lineage).takeWhile
      (fun s => !decide (some s.1 = rootDecl.parent)) = [] := by
    cases hparent : rootDecl.parent with
    | none => rfl
    | some k =>
      obtain ⟨content, hk⟩ := Program.exists_of_ending (hends k hparent)
      obtain ⟨-, hlineage⟩ := Program.lineage_cons (hends k hparent) hk
      rw [Option.elim_some, hlineage, List.takeWhile_cons_of_neg (by simp)]
  unfold Site.parts
  rw [hdestination, hlineage, hcons, List.append_cons,
    List.takeWhile_append_of_pos (by simpa using houter), hrest]
  simp

/-- The kinds of declarations that are numbered where they are anonymous. -/
inductive Numbering where
  | function
  | cls
  deriving DecidableEq

/-- The stem of the numbered names of a kind. -/
def Settings.stem (settings : Settings) : Numbering → String
  | .function => settings.lambdaStem
  | .cls => settings.objectStem

/-- The part that a number of a kind stands for. -/
def Settings.numberedName (settings : Settings) (kind : Numbering) (index : Nat) : String :=
  settings.stem kind ++ "-" ++ toString index

/-- The table of a kind. -/
def Locals.table (l : Locals) : Numbering → OrderedMap DeclId (Option Nat)
  | .function => l.functions
  | .cls => l.classes

/-- The kind of a declaration, if it is one of these. -/
def Declaration.numbering? : Declaration → Option Numbering
  | .function _ => some .function
  | .cls _ => some .cls
  | _ => none

/-- The numbering of a declaration: an anonymous function or class that stands in a body has one. -/
def Program.numbering? (p : Program) (d : DeclId) : Option Numbering :=
  (p.decls.get? d).bind fun content => (content.parent.bind p.decls.get?).bind fun outer =>
    if content.name.isSpecial && !outer.isClass then content.numbering? else none

/-- **The tables of a root are numbered**, functions and classes each for themselves. -/
theorem Program.exists_numbered {l : Locals} (h : p.locals root = .ok l) (kind : Numbering) :
    ∃ done next, Locals.Numbered p done (l.table kind) next := by
  obtain ⟨-, t, ht, rfl⟩ := exists_foldlM_of_locals h
  obtain ⟨hlambdas, hobjects⟩ := Locals.numbered_of_foldlM ht
  cases kind with
  | function => exact ⟨_, _, hlambdas⟩
  | cls => exact ⟨_, _, hobjects⟩

/-- A declaration in a table has a number exactly if it is anonymous. -/
theorem Locals.Numbered.join_get? {done : List DeclId} {table : OrderedMap DeclId (Option Nat)}
    (h : Numbered p done table next) (hd : d ∈ table.keys)
    (hcontent : p.decls.get? d = some content) :
    if content.name.isSpecial then ∃ i, table.get? d = some (some i)
      else (table.get? d).join = none := by
  have hname : p.isAnonymous d = content.name.isSpecial := by simp [Program.isAnonymous, hcontent]
  split
  next hspecial =>
    have hmem : d ∈ done.filter p.isAnonymous :=
      List.mem_filter.2 ⟨h.mem_done hd, hname.trans hspecial⟩
    obtain ⟨i, hi⟩ := Option.ne_none_iff_exists'.1 (mt List.idxOf?_eq_none_iff.1 (not_not.2 hmem))
    exact ⟨i, Option.join_eq_some_iff.1 ((h.number_eq d).trans hi)⟩
  next hspecial =>
    rw [h.number_eq, List.idxOf?_eq_none_iff]
    exact fun hmem => hspecial (hname.symm.trans (List.mem_filter.1 hmem).2)

/-- A number stands for one declaration. -/
theorem Locals.Numbered.eq_of_number {done : List DeclId} {table : OrderedMap DeclId (Option Nat)}
    (h : Numbered p done table next) {d' : DeclId} (hd : table.get? d = some (some i))
    (hd' : table.get? d' = some (some i)) : d = d' := by
  have hposition : ∀ {x}, table.get? x = some (some i) →
      (done.filter p.isAnonymous)[i]? = some x := by
    intro x hx
    have hi := h.number_eq x
    rw [hx, Option.join_some] at hi
    obtain ⟨hlt, hx, -⟩ := List.idxOf?_eq_some_iff.1 hi.symm
    rw [List.getElem?_eq_getElem hlt, hx]
  exact Option.some.inj ((hposition hd).symm.trans (hposition hd'))

namespace Site

open Program

variable {p : Program} {site : Site} {d k : DeclId} {content outer : Declaration} {kind : Numbering}

/-- What is in no other table contributes its number, or its name. -/
theorem part_eq (h : ∀ kind', kind' ≠ kind → d ∉ (site.locals.table kind').keys) :
    site.part (d, name) = ((site.locals.table kind).get? d).join.elim name.display
      (site.settings.numberedName kind) := by
  unfold part Locals.lambdaIndex? Locals.objectIndex?
  cases kind with
  | function =>
    rw [show site.locals.classes.get? d = none
      from OrderedMap.get?_eq_none_iff.2 (h .cls (by decide))]
    show _ = (site.locals.functions.get? d).join.elim _ _
    cases (site.locals.functions.get? d).join <;> rfl
  | cls =>
    rw [show site.locals.functions.get? d = none
      from OrderedMap.get?_eq_none_iff.2 (h .function (by decide))]
    show _ = (site.locals.classes.get? d).join.elim _ _
    cases (site.locals.classes.get? d).join <;> rfl

theorem part_of_not_mem (h : ∀ kind, d ∉ (site.locals.table kind).keys) :
    site.part (d, name) = name.display := by
  rw [part_eq fun kind' (_ : kind' ≠ .function) => h kind',
    OrderedMap.get?_eq_none_iff.2 (h .function)]
  rfl

/-- A table holds what is reached, stands in no class and is of its kind. -/
theorem mem_table (hsorted : p.Sorted site.root site.locals) (hd : p.decls.get? d = some content) :
    d ∈ (site.locals.table kind).keys ↔ p.Below site.root (.decl d) ∧ p.isMember d = .ok false
      ∧ content.numbering? = some kind := by
  cases kind with
  | function =>
    refine (hsorted.functions d).trans ?_
    rw [hd]
    cases content <;> simp [Declaration.numbering?]
  | cls =>
    refine (hsorted.classes d).trans ?_
    rw [hd]
    cases content <;> simp [Declaration.numbering?]

/-- **What a scope contributes** to composed names: the number of an anonymous local function or
class, and the declared name of anything else. -/
theorem part_cases (hlocals : p.locals site.root = .ok site.locals)
    (hbelow : p.Below site.root (.decl d)) (hd : p.decls.get? d = some content)
    (hparent : content.parent = some k) (houter : p.decls.get? k = some outer) :
    (∃ kind i, p.numbering? d = some kind ∧ (site.locals.table kind).get? d = some (some i)
        ∧ site.part (d, content.name) = site.settings.numberedName kind i)
      ∨ p.numbering? d = none ∧ site.part (d, content.name) = content.name.display := by
  obtain ⟨hsorted, -⟩ := locals_spec hlocals
  have hnumbering : p.numbering? d = if content.name.isSpecial && !outer.isClass
      then content.numbering? else none := by
    unfold Program.numbering?
    rw [hd, Option.bind_some, hparent, Option.bind_some, houter, Option.bind_some]
  have hmember : p.isMember d = .ok outer.isClass :=
    isMember_eq_ok.2 ⟨content, hd, .inr ⟨k, outer, hparent, houter, rfl⟩⟩
  have hmem : ∀ kind, d ∈ (site.locals.table kind).keys
      ↔ outer.isClass = false ∧ content.numbering? = some kind := by
    intro kind
    rw [mem_table hsorted hd, hmember]
    simp [hbelow]
  by_cases hkind : ∃ kind, outer.isClass = false ∧ content.numbering? = some kind
  · obtain ⟨kind, hclass, hkind⟩ := hkind
    have hothers : ∀ kind', kind' ≠ kind → d ∉ (site.locals.table kind').keys := by
      intro kind' hne hmem'
      exact hne (Option.some.inj (((hmem kind').1 hmem').2.symm.trans hkind))
    obtain ⟨done, next, hnumbers⟩ := exists_numbered hlocals kind
    have hnumber := hnumbers.join_get? ((hmem kind).2 ⟨hclass, hkind⟩) hd
    rw [hclass] at hnumbering
    split at hnumber
    next hspecial =>
      obtain ⟨i, hi⟩ := hnumber
      refine .inl ⟨kind, i, ?_, hi, ?_⟩
      · rw [hnumbering, hspecial, hkind]
        rfl
      · rw [part_eq hothers, hi]
        rfl
    next hspecial =>
      refine .inr ⟨?_, ?_⟩
      · rw [hnumbering, Bool.eq_false_of_not_eq_true hspecial]
        rfl
      · rw [part_eq hothers, hnumber]
        rfl
  · refine .inr ⟨?_, part_of_not_mem fun kind hd' => hkind ⟨kind, (hmem kind).1 hd'⟩⟩
    rw [hnumbering]
    split
    next hboth =>
      rw [Bool.and_eq_true, Bool.not_eq_true'] at hboth
      by_contra hsome
      obtain ⟨kind, hsome⟩ := Option.ne_none_iff_exists'.1 hsome
      exact hkind ⟨kind, hboth.2, hsome⟩
    next => rfl

/-- A number of a kind stands for one declaration. -/
theorem eq_of_number (hlocals : p.locals site.root = .ok site.locals) {d' : DeclId}
    (hd : (site.locals.table kind).get? d = some (some i))
    (hd' : (site.locals.table kind).get? d' = some (some i)) : d = d' := by
  obtain ⟨done, next, hnumbers⟩ := exists_numbered hlocals kind
  exact hnumbers.eq_of_number hd hd'

end Site

/-- **Ways whose scopes have different names are told apart** by their parts. -/
theorem Program.Rises.eq_of_parts {part : DeclId × Name → String}
    {scopes scopes' : List (DeclId × Name)} (h : p.Rises root scopes) (h' : p.Rises root scopes')
    (heq : ∀ s ∈ scopes, ∀ s' ∈ scopes', (∃ content content', p.decls.get? s.1 = some content
      ∧ p.decls.get? s'.1 = some content' ∧ content.parent = content'.parent) →
      part s = part s' → s.1 = s'.1)
    (hparts : scopes.map part = scopes'.map part) : scopes = scopes' := by
  induction scopes generalizing scopes' with
  | nil => exact (List.map_eq_nil_iff.1 hparts.symm).symm
  | cons s rest ih =>
    cases scopes' with
    | nil => cases hparts
    | cons s' rest' =>
      rw [List.map_cons, List.map_cons, List.cons.injEq] at hparts
      obtain ⟨⟨content, hs, hname, hparent⟩, hrest⟩ := h
      obtain ⟨⟨content', hs', hname', hparent'⟩, hrest'⟩ := h'
      -- the ways agree above, so the two scopes have the same parent
      obtain rfl := ih hrest hrest'
        (fun a ha b hb => heq a (List.mem_cons_of_mem _ ha) b (List.mem_cons_of_mem _ hb)) hparts.2
      have hid : s.1 = s'.1 := heq s List.mem_cons_self s' List.mem_cons_self
        ⟨content, content', hs, hs', hparent.trans hparent'.symm⟩ hparts.1
      rw [hid] at hs
      obtain rfl : content = content' := Option.mem_unique hs hs'
      rw [show s = s' from Prod.ext hid (hname.symm.trans hname')]

end LambdaLift
