/-
  LambdaLift.Proofs.Nesting
  **PROGRAMS OF NESTED FUNCTIONS.**

  The module lists functions, and each may have functions in its body, to
  any depth.  Code names what is bound in a function around it, calls
  functions of the module and those that stand in a function around it,
  and returns from functions below the same root or of the module.
  The functions around a place form a chain of parents up to the root, so
  what a function captures is bound further out on its chain, and what it
  hands to a local function it owns or has captured itself.

  Main results:
    * `Nest.chain` — the functions around a place;
    * `Nest.captured_of_use`, `Nest.captured_of_call` — what is captured;
    * `Nest.binder_of_captured` — and where it is bound.
-/
import Mathlib
import LambdaLift.Proofs.Collected
import LambdaLift.Proofs.Externality
import LambdaLift.Proofs.Simulation

namespace LambdaLift

variable {P : Program} {d o : DeclId} {ds : List DeclId} {e : ExprId} {v : ValueId}
  {node : Expr} {place : Place}

/-! ## §1. Lexical scoping of functions. -/

/-- The value that a label binds. -/
def Label.bound? : Label → Option ValueId
  | .expr _ node => node.bound?
  | _ => none

namespace Program

/-- A function below the root binds a value: as a parameter, as its receiver, or as a variable of
its own code. -/
def Introduces (P : Program) (root o : DeclId) (v : ValueId) : Prop :=
  (∃ f ∈ (P.decls.get? o).bind (·.function?), v ∈ f.extensionReceiver.toList ++ f.params)
    ∨ ∃ x ∈ P.occurrencesBelow root, x.1.headD root = o ∧ x.2.bound? = some v

/-- A call under these scopes goes to a function that the module lists, or to one that is placed
below the root and stands in a function around the call, with one argument for each parameter. -/
def CallScoped (P : Program) (root : DeclId) (ds : List DeclId) (a : Access) : Prop :=
  ∃ f ∈ (P.decls.get? a.callee).bind (·.function?), a.args.length = f.params.length
    ∧ (a.callee ∈ P.top
      ∨ (∃ x ∈ P.occurrencesBelow root, x.2.entry = .inr a.callee)
      ∧ ∃ o ∈ f.parent, o ∈ ds ++ [root])

/-- What a node may name under these scopes, and which nodes there are. -/
def NodeScoped (P : Program) (root : DeclId) (ds : List DeclId) : Expr → Prop
  | .get v | .set v _ => ∃ o ∈ ds ++ [root], P.Introduces root o v
  | .var v _ => ∃ isMutable, P.ValueIs v (ds.headD root) (.var isMutable)
  | .access .call a => P.CallScoped root ds a
  | .ret target _ => target ∈ P.top ∨ ∃ x ∈ P.occurrencesBelow root, x.2.entry = .inr target
  | .lit _ | .decl _ | .block _ | .branch _ _ _ | .loop _ _ | .binary _ _ _ => True
  | _ => False

/-- What may stand under these scopes: scoped nodes, and functions. -/
def LabelScoped (P : Program) (root : DeclId) (ds : List DeclId) : Label → Prop
  | .expr _ node => P.NodeScoped root ds node
  | .decl _ content => content.function?.isSome = true
  | .backing _ _ => False

/-- A function that the module lists, with well-scoped functions below it that are placed once each
and not listed. -/
structure Nest (P : Program) (root : DeclId) : Prop where
  shaped : P.WellShaped root
  unlisted : ∀ d ∈ P.top, .inr d ∉ (P.occurrencesBelow root).map (·.2.entry)
  outermost : ∃ f, P.decls.get? root = some (.function f) ∧ f.parent = none ∧ f.accessorOf = none
    ∧ P.Kept root (.function f)
  lexical : ∀ x ∈ P.occurrencesBelow root, P.LabelScoped root x.1 x.2

instance (P : Program) (root o : DeclId) (v : ValueId) : Decidable (P.Introduces root o v) :=
  decidable_of_iff ((∃ f ∈ (P.decls.get? o).bind (·.function?),
    ∃ u ∈ f.extensionReceiver.toList ++ f.params, u = v)
      ∨ ∃ x ∈ P.occurrencesBelow root, x.1.headD root = o ∧ x.2.bound? = some v) <| by
    simp only [exists_eq_right, Introduces]

instance (P : Program) (root : DeclId) (ds : List DeclId) (a : Access) :
    Decidable (P.CallScoped root ds a) :=
  decidable_of_iff
    (∃ f ∈ (P.decls.get? a.callee).bind (·.function?), a.args.length = f.params.length
      ∧ ((∃ d ∈ P.top, d = a.callee)
        ∨ (∃ x ∈ P.occurrencesBelow root, x.2.entry = .inr a.callee) ∧ ∃ o ∈ f.parent,
        ∃ d ∈ ds ++ [root], d = o)) <| by
    simp only [exists_eq_right, CallScoped]

instance (P : Program) (root : DeclId) (ds : List DeclId) :
    (node : Expr) → Decidable (P.NodeScoped root ds node)
  | .get v | .set v _ => inferInstanceAs (Decidable (∃ o ∈ ds ++ [root], P.Introduces root o v))
  | .var v _ =>
    inferInstanceAs (Decidable (∃ isMutable, P.ValueIs v (ds.headD root) (.var isMutable)))
  | .access .call a => inferInstanceAs (Decidable (P.CallScoped root ds a))
  | .ret target _ =>
    decidable_of_iff
      ((∃ d ∈ P.top, d = target) ∨ ∃ x ∈ P.occurrencesBelow root, x.2.entry = .inr target) <| by
      simp only [exists_eq_right, NodeScoped]
  | .lit _ | .decl _ | .block _ | .branch _ _ _ | .loop _ _ | .binary _ _ _ => .isTrue trivial
  | .access .new _ | .access .ref _ | .getField _ _ | .setField _ _ _ | .delegated _ _ _
  | .classRef _ => .isFalse id

instance (P : Program) (root : DeclId) (ds : List DeclId) :
    (label : Label) → Decidable (P.LabelScoped root ds label)
  | .expr _ node => inferInstanceAs (Decidable (P.NodeScoped root ds node))
  | .decl _ content => inferInstanceAs (Decidable (content.function?.isSome = true))
  | .backing _ _ => .isFalse id

instance (P : Program) (root : DeclId) : Decidable (P.Nest root) :=
  decidable_of_iff
    (P.WellShaped root ∧ (∀ d ∈ P.top, ∀ x ∈ P.occurrencesBelow root, x.2.entry ≠ .inr d)
      ∧ (∃ content ∈ P.decls.get? root, ∃ f ∈ content.function?, f.parent = none
        ∧ f.accessorOf = none ∧ P.Kept root content)
      ∧ ∀ x ∈ P.occurrencesBelow root, P.LabelScoped root x.1 x.2) <| by
    constructor
    · rintro ⟨hshaped, hunlisted, ⟨content, hroot, f, hf, houtermost⟩, hlexical⟩
      refine ⟨hshaped, fun d hd hmem => ?_, ⟨f, ?_, ?_⟩, hlexical⟩
      · obtain ⟨x, hx, hentry⟩ := List.mem_map.1 hmem
        exact hunlisted d hd x hx hentry
      · cases content <;> cases hf
        exact hroot
      · cases content <;> cases hf
        exact houtermost
    · rintro ⟨hshaped, hunlisted, ⟨f, hroot, houtermost⟩, hlexical⟩
      exact ⟨hshaped, fun d hd x hx hentry => hunlisted d hd (List.mem_map.2 ⟨x, hx, hentry⟩),
        ⟨_, hroot, f, rfl, houtermost⟩, hlexical⟩

/-- The root, or a function placed below it. -/
def FunctionOf (P : Program) (root d : DeclId) : Prop := d = root ∨ P.Placed root d

/-- A function names a value: it binds the value itself, or it captures it from a function around
it. -/
def Sees (P : Program) (root d : DeclId) (v : ValueId) : Prop :=
  ∃ o, P.FunctionOf root o ∧ P.Introduces root o v ∧ P.Within d o ∧ (o = d ∨ Captured P root d v)

/-! ## §2. The functions around a place. -/

theorem Inner.unique {o' : DeclId} (h : P.Inner d o) (h' : P.Inner d o') : o = o' := by
  obtain ⟨f, hd, ho⟩ := h
  obtain ⟨f', hd', ho'⟩ := h'
  cases hd.symm.trans hd'
  exact Option.mem_unique ho ho'

/-- A chain of parents leads from its first function to each of the others. -/
theorem within_of_chain (h : (d :: ds).IsChain P.Inner) (ho : o ∈ d :: ds) : P.Within d o := by
  induction ds generalizing d with
  | nil =>
    obtain rfl := List.mem_singleton.1 ho
    exact .refl
  | cons d' ds ih =>
    rw [List.isChain_cons_cons] at h
    rcases List.mem_cons.1 ho with rfl | ho
    · exact .refl
    · exact .head h.1 (ih h.2 ho)

/-- What is around a function of a chain is on the chain, if the last function stands in none. -/
theorem mem_of_within {root : DeclId} (hroot : ∀ o, ¬ P.Inner root o)
    (h : (ds ++ [root]).IsChain P.Inner) (hd : d ∈ ds ++ [root]) (hwithin : P.Within d o) :
    o ∈ ds ++ [root] := by
  induction hwithin with
  | refl => exact hd
  | @tail b c _ hinner ih =>
    obtain ⟨before, after, hsplit⟩ := List.append_of_mem ih
    cases after with
    | nil =>
      -- the last function of the chain is the root
      obtain ⟨-, hlast⟩ := List.append_inj' hsplit rfl
      obtain rfl := List.singleton_inj.1 hlast
      exact absurd hinner (hroot c)
    | cons c' after =>
      rw [hsplit] at h ⊢
      have hchain := (List.isChain_append.1 h).2.1
      rw [List.isChain_cons_cons] at hchain
      obtain rfl := hinner.unique hchain.1
      simp

namespace Nest

variable {P : Program} {root : DeclId} (h : P.Nest root)
include h

theorem not_inner (o : DeclId) : ¬ P.Inner root o := by
  rintro ⟨f, hf, hparent⟩
  obtain ⟨f', hf', hnone, -⟩ := h.outermost
  cases hf.symm.trans hf'
  cases hnone.symm.trans hparent

/-- What stands below the root: scoped nodes, and functions. -/
theorem place_cases (hocc : Occurs P root ds place) :
    (∃ e node, place = .expr e ∧ P.exprs.get? e = some node ∧ P.NodeScoped root ds node)
      ∨ ∃ d f, place = .decl d ∧ P.decls.get? d = some (.function f) := by
  obtain ⟨label, hlabel⟩ := h.shaped.exists_label hocc
  have hscoped := h.lexical _ (h.shaped.mem_iff.1 ⟨place, hocc, hlabel⟩)
  cases label with
  | expr e node =>
    obtain ⟨rfl, hnode⟩ := label?_eq_expr.1 hlabel
    exact .inl ⟨e, node, rfl, hnode, hscoped⟩
  | decl d content =>
    obtain ⟨rfl, hd⟩ := label?_eq_decl.1 hlabel
    cases content with
    | function f => exact .inr ⟨d, f, rfl, hd⟩
    | constructor _ => cases hscoped
    | cls _ => cases hscoped
    | property _ => cases hscoped
    | field _ => cases hscoped
  | backing d content => exact hscoped.elim

theorem nodeScoped (hocc : Occurs P root ds (.expr e)) (hnode : P.exprs.get? e = some node) :
    P.NodeScoped root ds node := by
  obtain ⟨e', node', heq, hnode', hscoped⟩ | ⟨d, f, heq, -⟩ := h.place_cases hocc
  · cases heq
    cases hnode.symm.trans hnode'
    exact hscoped
  · cases heq

/-- What code uses is bound by a function around it. -/
theorem introduced_of_used (hocc : Occurs P root ds (.expr e)) (hnode : P.exprs.get? e = some node)
    (hused : node.used? = some v) : ∃ o ∈ ds ++ [root], P.Introduces root o v := by
  have hscoped := h.nodeScoped hocc hnode
  cases node with
  | get u =>
    cases hused
    exact hscoped
  | set u source =>
    cases hused
    exact hscoped
  | _ => cases hused

/-- A function below the root is placed by a statement. -/
theorem exists_statement (hocc : Occurs P root ds (.decl d)) :
    ∃ e, Occurs P root ds (.expr e) ∧ P.exprs.get? e = some (.decl d) := by
  cases h.shaped.standing hocc with
  | placed hocc' he => exact ⟨_, hocc', he⟩
  | member hocc' hk _ =>
    obtain ⟨_, _, heq, -⟩ | ⟨_, _, heq, hf⟩ := h.place_cases hocc'
    · cases heq
    · cases heq
      cases hk.symm.trans hf
  | accessor hocc' hq _ =>
    obtain ⟨_, _, heq, -⟩ | ⟨_, _, heq, hf⟩ := h.place_cases hocc'
    · cases heq
    · cases heq
      cases hq.symm.trans hf

/-- **The functions around a place** stand one in the other, up to the root. -/
theorem chain (hocc : Occurs P root ds place) : (ds ++ [root]).IsChain P.Inner := by
  induction hocc with
  | part => simp
  | @inner ds outer place label hocc hlabel _ ih =>
    obtain ⟨e, node, rfl, hnode, -⟩ | ⟨d, f, rfl, hf⟩ := h.place_cases hocc
    · obtain rfl := Option.some.inj (hlabel.symm.trans (label?_eq_expr.2 ⟨rfl, hnode⟩))
      exact ih
    · obtain rfl := Option.some.inj (hlabel.symm.trans (label?_eq_decl.2 ⟨rfl, hf⟩))
      obtain ⟨e, hocc', he⟩ := h.exists_statement hocc
      obtain ⟨content, hd, hplaced⟩ := h.shaped.placedIn hocc' he
      cases hf.symm.trans hd
      have hparent := hplaced.1
      show ((d :: ds) ++ [root]).IsChain P.Inner
      -- the innermost callable around is the innermost function around
      cases ds with
      | nil => simpa using ⟨f, hf, hparent⟩
      | cons d' ds =>
        refine List.isChain_cons_cons.2 ⟨⟨f, hf, ?_⟩, ih⟩
        obtain ⟨f', hd'⟩ : ∃ f', P.decls.get? d' = some (.function f') := by
          obtain ⟨o, rest, hrest⟩ := List.exists_cons_of_ne_nil (show ds ++ [root] ≠ [] by simp)
          rw [List.cons_append, hrest, List.isChain_cons_cons] at ih
          exact ih.1.imp fun _ => And.left
        rw [hparent]
        simp [enclosing, hd', Declaration.isCallable]

/-! ## §3. The functions of a root. -/

/-- What is declared below the root is placed there. -/
theorem placed_of_entry (hocc : Occurs P root ds place) (hentry : place.entry = .inr d) :
    P.Placed root d := by
  obtain ⟨_, _, rfl, -⟩ | ⟨d', f, rfl, -⟩ := h.place_cases hocc
  · cases hentry
  · cases hentry
    obtain ⟨e, hocc', he⟩ := h.exists_statement hocc
    exact ⟨ds, e, hocc', he⟩

/-- A function that is open below the root is placed there. -/
theorem placed_of_mem (hocc : Occurs P root ds place) (hd : d ∈ ds) : P.Placed root d := by
  obtain ⟨ds', place', label, content, hocc', hlabel, hopened⟩ := hocc.opens hd
  refine h.placed_of_entry hocc' ?_
  rw [← entry_of_label hlabel]
  exact Label.entry_of_opened hopened

/-- The functions around a place are functions of the root. -/
theorem functionOf_of_mem (hocc : Occurs P root ds place) (hd : d ∈ ds ++ [root]) :
    P.FunctionOf root d := by
  rcases List.mem_append.1 hd with hd | hd
  · exact .inr (h.placed_of_mem hocc hd)
  · exact .inl (List.mem_singleton.1 hd)

/-- What the module lists is not placed below the root. -/
theorem not_placed_of_mem_top (hd : d ∈ P.top) : ¬ P.Placed root d := by
  intro hplaced
  obtain ⟨ds, hocc⟩ := hplaced.occurs
  obtain ⟨label, hlabel⟩ := h.shaped.exists_label hocc
  refine h.unlisted d hd (List.mem_map.2 ⟨_, h.shaped.mem_iff.1 ⟨_, hocc, hlabel⟩, ?_⟩)
  exact entry_of_label hlabel

theorem placed_of_mem_entries (hd : ∃ x ∈ P.occurrencesBelow root, x.2.entry = .inr d) :
    P.Placed root d := by
  obtain ⟨x, hx, hentry⟩ := hd
  obtain ⟨place, hocc, hlabel⟩ := h.shaped.mem_iff.2 hx
  rw [entry_of_label hlabel] at hentry
  exact h.placed_of_entry hocc hentry

/-- A call of what is not placed below the root goes to a function that the module lists. -/
theorem mem_top_of_call {a : Access} (hcall : P.CallScoped root ds a)
    (hplaced : ¬ P.Placed root a.callee) : a.callee ∈ P.top := by
  obtain ⟨f, -, -, htop | ⟨hentry, -⟩⟩ := hcall
  · exact htop
  · exact absurd (h.placed_of_mem_entries hentry) hplaced

/-- A function of the root is kept well. -/
theorem exists_function (hd : P.FunctionOf root d) :
    ∃ f, P.decls.get? d = some (.function f) ∧ P.Kept d (.function f) := by
  rcases hd with rfl | hplaced
  · obtain ⟨f, hf, -, -, hkept⟩ := h.outermost
    exact ⟨f, hf, hkept⟩
  · obtain ⟨ds, hocc⟩ := hplaced.occurs
    obtain ⟨_, _, heq, -⟩ | ⟨d', f, heq, hf⟩ := h.place_cases hocc
    · cases heq
    · cases heq
      exact ⟨f, hf, h.shaped.kept hocc hf⟩

/-- The code of a function of the root stands under the function and those around it. -/
theorem exists_scopes (hd : P.FunctionOf root d) :
    ∃ ds, OwnerAt P root ds d
      ∧ ((d = root ∧ ds = []) ∨ P.Placed root d ∧ ∃ outer, ds = d :: outer) := by
  rcases hd with rfl | hplaced
  · exact ⟨[], .root, .inl ⟨rfl, rfl⟩⟩
  · obtain ⟨ds, hocc⟩ := hplaced.occurs
    obtain ⟨f, hf, -⟩ := h.exists_function (.inr hplaced)
    exact ⟨d :: ds, .below hocc (label?_eq_decl.2 ⟨rfl, hf⟩) rfl, .inr ⟨hplaced, ds, rfl⟩⟩

theorem exists_expr (hd : P.FunctionOf root d) (he : CodeOf P d e) :
    ∃ node, P.exprs.get? e = some node := by
  obtain ⟨ds, howner, -⟩ := h.exists_scopes hd
  obtain ⟨label, hlabel⟩ := h.shaped.exists_label (howner.occurs he)
  obtain ⟨node, hnode, -⟩ := Option.map_eq_some_iff.1 hlabel
  exact ⟨node, hnode⟩

/-- Code belongs to the innermost function around it. -/
theorem owner_eq (howner : OwnerAt P root ds o) : o = ds.headD root := by
  cases howner with
  | root => rfl
  | below hocc hlabel hentry =>
    obtain ⟨e, node, rfl, hnode, -⟩ | ⟨d, f, rfl, hf⟩ := h.place_cases hocc
    · obtain rfl := Option.some.inj (hlabel.symm.trans (label?_eq_expr.2 ⟨rfl, hnode⟩))
      cases hentry
    · obtain rfl := Option.some.inj (hlabel.symm.trans (label?_eq_decl.2 ⟨rfl, hf⟩))
      cases hentry
      rfl

/-- What a function introduces is a receiver, a parameter, or a variable of its code. -/
theorem introduces_cases (hv : P.Introduces root o v) :
    (∃ f, P.decls.get? o = some (.function f) ∧ v ∈ f.extensionReceiver.toList ++ f.params)
      ∨ ∃ e init, CodeOf P o e ∧ P.exprs.get? e = some (.var v init) := by
  rcases hv with ⟨f, hf, hv⟩ | ⟨⟨ds, label⟩, hx, rfl, hbound⟩
  · obtain ⟨content, ho, hcontent⟩ := Option.bind_eq_some_iff.1 hf
    cases content with
    | function f' =>
      cases hcontent
      exact .inl ⟨f, ho, hv⟩
    | _ => cases hcontent
  · obtain ⟨place, hocc, hlabel⟩ := h.shaped.mem_iff.2 hx
    have hscoped := h.lexical _ hx
    cases label with
    | expr e node =>
      obtain ⟨rfl, hnode⟩ := label?_eq_expr.1 hlabel
      obtain ⟨o, howner, hcode⟩ := hocc.exists_owner
      obtain rfl := h.owner_eq howner
      cases node with
      | var u init =>
        cases hbound
        exact .inr ⟨e, init, hcode, hnode⟩
      | delegated _ _ _ => exact hscoped.elim
      | _ => cases hbound
    | _ => cases hbound

/-- A function binds the variables of its code. -/
theorem introduces_of_var {init : Option ExprId} (hd : P.FunctionOf root d) (he : CodeOf P d e)
    (hnode : P.exprs.get? e = some (.var v init)) :
    P.Introduces root d v ∧ ∃ isMutable, P.ValueIs v d (.var isMutable) := by
  obtain ⟨ds, howner, -⟩ := h.exists_scopes hd
  have hocc := howner.occurs he
  have hlabel := label?_eq_expr.2 ⟨rfl, hnode⟩
  obtain rfl := h.owner_eq howner
  exact ⟨.inr ⟨_, h.shaped.mem_iff.1 ⟨_, hocc, hlabel⟩, rfl, rfl⟩, h.nodeScoped hocc hnode⟩

/-- What a function introduces it owns. -/
theorem owns_of_introduces (ho : P.FunctionOf root o)
    (hv : P.Introduces root o v) : P.Owns o v := by
  rcases h.introduces_cases hv with ⟨f, hf, hv⟩ | ⟨e, init, he, hnode⟩
  · obtain ⟨f', hf', hparams, hext⟩ := h.exists_function ho
    cases hf.symm.trans hf'
    rcases List.mem_append.1 hv with hv | hv
    · obtain ⟨value, hvalue, howner, -⟩ := hext v (Option.mem_toList.1 hv)
      exact ⟨value, hvalue, howner⟩
    · exact hparams.owner hv
  · obtain ⟨-, isMutable, value, hvalue, howner, -⟩ := h.introduces_of_var ho he hnode
    exact ⟨value, hvalue, howner⟩

/-! ## §4. What functions capture. -/

/-- What a local function does not own is external to it. -/
theorem external (hplaced : P.Placed root d) (hv : P.Owns o v) (hne : o ≠ d) : P.External d v := by
  obtain ⟨ds, e, hocc, he⟩ := id hplaced
  obtain ⟨f, hf, -, hext⟩ := h.exists_function (.inr hplaced)
  obtain ⟨content, hd, hin⟩ := h.shaped.placedIn hocc he
  cases hf.symm.trans hd
  obtain ⟨value, hvalue, howner⟩ := hv
  refine (external_function_iff hf ⟨fun _ => hin.2, fun u hu => ?_⟩
    (h.shaped.isMember_placed hocc he) hvalue).2 ?_
  · obtain ⟨value', hvalue', howner', -⟩ := hext u hu
    exact ⟨value', hvalue', howner'⟩
  · rintro ⟨value', hvalue', howner'⟩
    cases hvalue.symm.trans hvalue'
    exact hne (howner.symm.trans howner')

omit h in
/-- A value on its way outwards has not come to its owner yet. -/
theorem mem_of_reaches (hp : P.Closed) (hchains : P.ChainsEnd) {rest : List DeclId}
    (hreach : Reaches P v ds rest) (hv : P.Owns o v) (ho : o ∈ ds ++ [root]) :
    o ∈ rest.tail ++ [root] := by
  induction hreach with
  | innermost hexternal =>
    rcases List.mem_cons.1 ho with rfl | ho
    · exact absurd hv (hexternal.not_owns hp hchains)
    · exact ho
  | outwards _ hnot ih =>
    rcases List.mem_cons.1 (ih ho) with rfl | ho
    · exact absurd hv hnot
    · exact ho

/-- What reaches a scope is bound around it. -/
theorem within_of_reaches {outer : List DeclId} (hocc : Occurs P root ds place)
    (hreach : Reaches P v ds (d :: outer)) (ho : o ∈ ds ++ [root]) (hv : P.Owns o v) :
    P.Placed root d ∧ P.Within d o ∧ o ≠ d := by
  obtain ⟨rel, rfl⟩ := hreach.suffix
  have hmem : o ∈ (d :: outer).tail ++ [root] :=
    mem_of_reaches h.shaped.closed h.shaped.chains hreach hv ho
  refine ⟨h.placed_of_mem hocc (by simp), ?_, ?_⟩
  · have hchain := h.chain hocc
    rw [List.append_assoc] at hchain
    exact within_of_chain (List.isChain_append.1 hchain).2.1 (List.mem_cons_of_mem _ hmem)
  · rintro rfl
    exact hreach.not_owns h.shaped.closed h.shaped.chains hv

/-- Where the callee of a call stands, if it is placed below the root, what is around it is around
the call. -/
theorem mem_of_call {a : Access} (hocc : Occurs P root ds place) (hcall : P.CallScoped root ds a)
    (hplaced : P.Placed root a.callee) (hwithin : P.Within a.callee o) (hne : o ≠ a.callee) :
    o ∈ ds ++ [root] := by
  obtain ⟨f, hf, -, htop | ⟨-, q, hparent, hq⟩⟩ := hcall
  · exact absurd hplaced (h.not_placed_of_mem_top htop)
  obtain ⟨f', hf', -⟩ := h.exists_function (.inr hplaced)
  rw [hf'] at hf
  obtain rfl : f' = f := Option.some.inj hf
  rcases Relation.ReflTransGen.cases_head hwithin with heq | ⟨q', hinner, hwithin'⟩
  · exact absurd heq.symm hne
  · obtain rfl := hinner.unique ⟨f', hf', hparent⟩
    exact mem_of_within h.not_inner (h.chain hocc) hq hwithin'

/-- **What is captured is bound further out**, by a function around the one that captures it.  The
induction follows the rules of capture: a use is lexically scoped, and a call stands where all is in
sight that the callee sees. -/
theorem binder_of_captured (hcaptured : Captured P root d v) : P.Placed root d
    ∧ ∃ o, P.FunctionOf root o ∧ P.Introduces root o v ∧ P.Within d o ∧ o ≠ d := by
  induction hcaptured with
  | use hocc hlabel hused hreach =>
    obtain ⟨e, node, rfl, hnode, -⟩ | ⟨d', f, rfl, hf⟩ := h.place_cases hocc
    · obtain rfl := Option.some.inj (hlabel.symm.trans (label?_eq_expr.2 ⟨rfl, hnode⟩))
      obtain ⟨o, ho, hintroduces⟩ := h.introduced_of_used hocc hnode hused
      have hfunction := h.functionOf_of_mem hocc ho
      have howns := h.owns_of_introduces hfunction hintroduces
      obtain ⟨hplaced, hwithin, hne⟩ := h.within_of_reaches hocc hreach ho howns
      exact ⟨hplaced, o, hfunction, hintroduces, hwithin, hne⟩
    · obtain rfl := Option.some.inj (hlabel.symm.trans (label?_eq_decl.2 ⟨rfl, hf⟩))
      cases hused
  | @through ds place label callee g v d outer hocc hlabel hcallee hdraws _ hreach ih =>
    obtain ⟨hplacedG, o, hfunction, hintroduces, hwithinG, hneG⟩ := ih
    have howns := h.owns_of_introduces hfunction hintroduces
    obtain ⟨e, node, rfl, hnode, hscoped⟩ | ⟨d', f, rfl, hf⟩ := h.place_cases hocc
    · obtain rfl := Option.some.inj (hlabel.symm.trans (label?_eq_expr.2 ⟨rfl, hnode⟩))
      obtain ⟨a, rfl, hcall⟩ : ∃ a : Access, callee = a.callee ∧ P.CallScoped root ds a := by
        cases node with
        | access form a =>
          cases form with
          | call => exact ⟨a, (Option.some.inj hcallee).symm, hscoped⟩
          | _ => exact hscoped.elim
        | _ => cases hcallee
      obtain rfl : g = a.callee := by
        obtain ⟨f, hf, -⟩ := hcall
        cases hdraws with
        | function => rfl
        | constructor hc =>
          rw [hc] at hf
          cases hf
      have ho := h.mem_of_call hocc hcall hplacedG hwithinG hneG
      obtain ⟨hplaced, hwithin, hne⟩ := h.within_of_reaches hocc hreach ho howns
      exact ⟨hplaced, o, hfunction, hintroduces, hwithin, hne⟩
    · obtain rfl := Option.some.inj (hlabel.symm.trans (label?_eq_decl.2 ⟨rfl, hf⟩))
      cases hcallee

/-- What is bound around the code of a function is its own or comes to it from further out. -/
theorem reaches_of_mem (ho : o ∈ ds ++ [root]) (hv : P.Owns o v)
    (hds : (d = root ∧ ds = []) ∨ P.Placed root d ∧ ∃ outer, ds = d :: outer) :
    o = d ∨ ∃ outer, Reaches P v ds (d :: outer) := by
  rcases hds with ⟨rfl, rfl⟩ | ⟨hplaced, outer, rfl⟩
  · exact .inl (by simpa using ho)
  · by_cases hne : o = d
    · exact .inl hne
    · exact .inr ⟨outer, .innermost (h.external hplaced hv hne)⟩

theorem within_of_mem (hocc : Occurs P root ds place)
    (hds : (d = root ∧ ds = []) ∨ P.Placed root d ∧ ∃ outer, ds = d :: outer)
    (ho : o ∈ ds ++ [root]) : P.Within d o := by
  have hchain := h.chain hocc
  rcases hds with ⟨rfl, rfl⟩ | ⟨-, outer, rfl⟩
  · exact within_of_chain hchain ho
  · exact within_of_chain hchain ho

/-- **What code uses** is bound by its function, or captured. -/
theorem captured_of_use (hd : P.FunctionOf root d) (he : CodeOf P d e)
    (hnode : P.exprs.get? e = some node) (hused : node.used? = some v) : P.Sees root d v := by
  obtain ⟨ds, howner, hds⟩ := h.exists_scopes hd
  have hocc := howner.occurs he
  obtain ⟨o, ho, hintroduces⟩ := h.introduced_of_used hocc hnode hused
  have hfunction := h.functionOf_of_mem hocc ho
  refine ⟨o, hfunction, hintroduces, h.within_of_mem hocc hds ho, ?_⟩
  refine (h.reaches_of_mem ho (h.owns_of_introduces hfunction hintroduces) hds).imp_right ?_
  rintro ⟨outer, hreach⟩
  exact .use hocc (label?_eq_expr.2 ⟨rfl, hnode⟩) hused hreach

/-- **What a callee captures** is bound by the function that calls it, or captured there too. -/
theorem captured_of_call {a : Access} (hd : P.FunctionOf root d) (he : CodeOf P d e)
    (hnode : P.exprs.get? e = some (.access .call a)) (hcaptured : Captured P root a.callee v) :
    P.Sees root d v := by
  obtain ⟨ds, howner, hds⟩ := h.exists_scopes hd
  have hocc := howner.occurs he
  have hcall : P.CallScoped root ds a := h.nodeScoped hocc hnode
  obtain ⟨hplaced, o, hfunction, hintroduces, hwithin, hne⟩ := h.binder_of_captured hcaptured
  have ho := h.mem_of_call hocc hcall hplaced hwithin hne
  refine ⟨o, hfunction, hintroduces, h.within_of_mem hocc hds ho, ?_⟩
  refine (h.reaches_of_mem ho (h.owns_of_introduces hfunction hintroduces) hds).imp_right ?_
  rintro ⟨outer, hreach⟩
  obtain ⟨ds', hocc'⟩ := hplaced.occurs
  obtain ⟨f, hf, -⟩ := h.exists_function (.inr hplaced)
  have hstands : P.StandsInBody a.callee := by
    obtain ⟨f', hf', -, htop | ⟨-, q, hparent, hq⟩⟩ := hcall
    · exact absurd hplaced (h.not_placed_of_mem_top htop)
    rw [hf] at hf'
    obtain rfl : f = f' := Option.some.inj hf'
    obtain ⟨g, hg, -⟩ := h.exists_function (h.functionOf_of_mem hocc hq)
    exact ⟨h.shaped.isLocal hocc' rfl, _, q, _, hf, hparent, hg, rfl⟩
  exact .through hocc (label?_eq_expr.2 ⟨rfl, hnode⟩) rfl (.function hf hstands) hcaptured hreach

omit h in
/-- What captures anything has code. -/
theorem exists_code_of_captured (hcaptured : Captured P root d v) :
    ∃ content place, P.decls.get? d = some content ∧ place ∈ content.parts := by
  have hpart : ∀ {ds outer : List DeclId} {place : Place}, Occurs P root ds place →
      Reaches P v ds (d :: outer) →
      ∃ content place, P.decls.get? d = some content ∧ place ∈ content.parts := by
    intro ds outer place hocc hreach
    obtain ⟨rel, hsplit⟩ := hreach.suffix
    obtain ⟨hinside, -⟩ := hocc.inside hsplit.symm
    clear hocc hsplit
    induction hinside with
    | part hd hplace => exact ⟨_, _, hd, hplace⟩
    | inner _ _ _ ih => exact ih
  cases hcaptured with
  | use hocc _ _ hreach => exact hpart hocc hreach
  | through hocc _ _ _ _ hreach => exact hpart hocc hreach

/-- The root captures nothing. -/
theorem not_captured_root (v : ValueId) : ¬ Captured P root root v := by
  intro hcaptured
  obtain ⟨ds, hocc⟩ := (h.binder_of_captured hcaptured).1.occurs
  exact h.shaped.entry_ne_root hocc rfl

end Nest

end Program

end LambdaLift
