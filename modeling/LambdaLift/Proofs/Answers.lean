/-
  LambdaLift.Proofs.Answers
  **IN A CLOSED PROGRAM EVERY QUESTION THAT FOLLOWS HANDLES HAS AN ANSWER.**

  Printing and looking for classes follow handles to a bounded depth.  Where
  nothing is nested in itself, entries can be ranked: what is nested has a
  lower rank, and no rank is higher than there are entries.  So the depth
  suffices, and in a closed program no handle on the way leads nowhere.

  Main results:
    * `exists_rank` — a relation without circles over finitely many things
      falls along a rank that is no higher than there are things;
    * `Program.containers_answers` — the containers of a program are found;
    * `Program.header_answers`, `Program.declDoc_answers` — declarations print.
-/
import Mathlib
import LambdaLift.Lowering
import LambdaLift.Proofs.CaptureWalk
import LambdaLift.Proofs.Growth

namespace LambdaLift

variable {d : DeclId} {e : ExprId} {v : ValueId} {content : Declaration}
  {node : Expr} {value : Value}

/-! ## §1. Ranks. -/

/-- A relation without circles that leads into a finite set falls along a rank no higher than the
set is large: the rank counts what can be reached. -/
theorem exists_rank {α : Type} {R : α → α → Prop} {s : Finset α} (hs : ∀ {a b}, R a b → b ∈ s)
    (hacyclic : ∀ a, ¬ Relation.TransGen R a a) :
    ∃ rank : α → Nat, (∀ {a b}, R a b → rank b < rank a) ∧ ∀ a, rank a ≤ s.card := by
  classical
  refine ⟨fun a => (s.filter (Relation.TransGen R a)).card, fun {a b} hab => ?_,
    fun a => Finset.card_filter_le _ _⟩
  refine Finset.card_lt_card (Finset.ssubset_iff_subset_ne.2 ⟨fun x hx => ?_, fun heq => ?_⟩)
  · rw [Finset.mem_filter] at hx ⊢
    exact ⟨hx.1, .head hab hx.2⟩
  · have hb : b ∈ s.filter (Relation.TransGen R b) :=
      heq ▸ Finset.mem_filter.2 ⟨hs hab, .single hab⟩
    exact hacyclic b (Finset.mem_filter.1 hb).2

/-- The handles below a bound. -/
def Handle.below (kind : Entity) (n : Nat) : Finset (Handle kind) :=
  ((List.range n).map Handle.mk).toFinset

theorem Handle.mem_below {kind : Entity} {n : Nat} {h : Handle kind} :
    h ∈ Handle.below kind n ↔ h.index < n := by
  obtain ⟨i⟩ := h
  simp [below]

theorem Handle.card_below_le (kind : Entity) (n : Nat) : (Handle.below kind n).card ≤ n := by
  have h := List.toFinset_card_le ((List.range n).map fun i => (⟨i⟩ : Handle kind))
  simpa [below] using h

namespace Program

variable {p : Program}

theorem Encloses.operand {x : ExprId} (he : p.exprs.get? e = some node) (hx : x ∈ node.operands) :
    p.Encloses .nested (.expr e) (.expr x) := by
  refine ⟨.expr e node, label?_eq_expr.2 ⟨rfl, he⟩, ?_⟩
  cases node with
  | decl d => cases hx
  | _ => exact List.mem_map_of_mem hx

theorem Encloses.placed (he : p.exprs.get? e = some (.decl d)) :
    p.Encloses .nested (.expr e) (.decl d) :=
  ⟨.expr e (.decl d), label?_eq_expr.2 ⟨rfl, he⟩, List.mem_singleton.2 rfl⟩

theorem Encloses.part {d : DeclId} {content : Declaration} {part : Place}
    (hd : p.decls.get? d = some content) (hpart : part ∈ content.parts) :
    p.Encloses .nested (.decl d) part :=
  ⟨.decl d content, label?_eq_decl.2 ⟨rfl, hd⟩, hpart⟩

/-- What is nested somewhere in a closed program is there. -/
theorem Closed.exists_label (hp : p.Closed) {a b : Place} (h : p.Encloses .nested a b) :
    ∃ label, p.label? b = some label := by
  obtain ⟨label, hlabel, -⟩ := id h
  exact hp.completeAt ⟨label, hlabel⟩ b (.single h)

theorem Acyclic.of_rank {rank : Place → Nat}
    (h : ∀ {a b}, p.Encloses .nested a b → rank b < rank a) : p.Acyclic := by
  have hfalls : ∀ {a b}, Relation.TransGen (p.Encloses .nested) a b → rank b < rank a := by
    intro a b hab
    induction hab with
    | single hstep => exact h hstep
    | tail _ hstep ih => exact (h hstep).trans ih
  exact fun place hcycle => absurd (hfalls hcycle) (lt_irrefl _)

/-- Places can be ranked. -/
theorem Acyclic.exists_rank (hacyclic : p.Acyclic) (hp : p.Closed) :
    ∃ rank : Place → Nat, ∀ {a b}, p.Encloses .nested a b → rank b < rank a := by
  have hmem : ∀ {a b}, p.Encloses .nested a b → b ∈ p.places.toFinset := by
    intro a b hab
    obtain ⟨label, hlabel⟩ := hp.exists_label hab
    exact List.mem_toFinset.2 (mem_places hlabel)
  obtain ⟨rank, hrank, -⟩ := LambdaLift.exists_rank hmem hacyclic
  exact ⟨rank, hrank⟩

/-- Expressions can be ranked, no higher than there are expressions. -/
theorem Acyclic.exists_exprRank (hacyclic : p.Acyclic) (hp : p.Closed) :
    ∃ rank : ExprId → Nat,
      (∀ {e node}, p.exprs.get? e = some node → ∀ x ∈ node.operands, rank x < rank e)
      ∧ ∀ e, rank e ≤ p.exprs.size := by
  let Operand : ExprId → ExprId → Prop :=
    fun e x => ∃ node, p.exprs.get? e = some node ∧ x ∈ node.operands
  have hmem : ∀ {e x}, Operand e x → x ∈ Handle.below .expr p.exprs.size := by
    rintro e x ⟨node, he, hx⟩
    exact Handle.mem_below.2 ((hp.2.2.1 node (Arena.mem_entries_of_get? he)).2.2 x hx)
  have hcircle : ∀ e, ¬ Relation.TransGen Operand e e := by
    intro e hcycle
    refine hacyclic (.expr e) (hcycle.lift Place.expr ?_)
    rintro a b ⟨node, ha, hb⟩
    exact .operand ha hb
  obtain ⟨rank, hrank, hbound⟩ := LambdaLift.exists_rank hmem hcircle
  exact ⟨rank, fun he x hx => hrank ⟨_, he, hx⟩,
    fun e => (hbound e).trans (Handle.card_below_le _ _)⟩

/-- The places of expressions and of declarations. -/
def mainPlaces (p : Program) : Finset Place :=
  ((List.range p.decls.size).map (fun i => Place.decl ⟨i⟩)
    ++ (List.range p.exprs.size).map fun i => Place.expr ⟨i⟩).toFinset

theorem card_mainPlaces_lt (p : Program) : p.mainPlaces.card < p.depth := by
  have h := List.toFinset_card_le ((List.range p.decls.size).map (fun i => Place.decl ⟨i⟩)
    ++ (List.range p.exprs.size).map fun i => Place.expr ⟨i⟩)
  unfold mainPlaces depth
  simp only [List.length_append, List.length_map, List.length_range] at h
  omega

/-- Ranks that suit the depth to which handles are followed. -/
structure Ranks (p : Program) (rank : Place → Nat) : Prop where
  operand : ∀ {e node}, p.exprs.get? e = some node →
    ∀ x ∈ node.operands, rank (.expr x) < rank (.expr e)
  placed : ∀ {e d}, p.exprs.get? e = some (.decl d) → rank (.decl d) < rank (.expr e)
  code : ∀ {d content e}, p.decls.get? d = some content → content.code = some e →
    rank (.expr e) < rank (.decl d)
  member : ∀ {d c}, p.decls.get? d = some (.cls c) →
    ∀ m ∈ c.members, rank (.decl m) < rank (.decl d)
  bound : ∀ place, rank place < p.depth

theorem Acyclic.exists_ranks (hacyclic : p.Acyclic) (hp : p.Closed) : ∃ rank, p.Ranks rank := by
  obtain ⟨rank, hrank, hbound⟩ := LambdaLift.exists_rank
    (R := fun a b => p.Encloses .nested a b ∧ b ∈ p.mainPlaces) (fun h => h.2)
    fun a hcycle => hacyclic a (hcycle.lift id fun _ _ h => h.1)
  have hexpr : ∀ {a e}, p.Encloses .nested a (.expr e) → rank (.expr e) < rank a := by
    intro a e h
    obtain ⟨label, hlabel⟩ := hp.exists_label h
    refine hrank ⟨h, List.mem_toFinset.2 (List.mem_append_right _ ?_)⟩
    exact List.mem_map.2 ⟨e.index, List.mem_range.2 (hasEntry_of_label hlabel), rfl⟩
  have hdecl : ∀ {a d}, p.Encloses .nested a (.decl d) → rank (.decl d) < rank a := by
    intro a d h
    obtain ⟨label, hlabel⟩ := hp.exists_label h
    refine hrank ⟨h, List.mem_toFinset.2 (List.mem_append_left _ ?_)⟩
    exact List.mem_map.2 ⟨d.index, List.mem_range.2 (hasEntry_of_label hlabel), rfl⟩
  refine ⟨rank, fun he x hx => hexpr (.operand he hx), fun he => hdecl (.placed he),
    fun hd he => ?_, fun hd m hm => hdecl (.part hd (List.mem_map_of_mem hm)),
    fun place => (hbound place).trans_lt p.card_mainPlaces_lt⟩
  refine hexpr (.part hd ?_)
  rename_i content e
  cases content <;> simp_all [Declaration.code, Declaration.parts]

end Program

/-! ## §2. Questions with answers. -/

/-- The question has an answer. -/
def Answers {α : Type} (x : Except Fault α) : Prop := ∃ a, x = .ok a

namespace Answers

variable {α β : Type}

theorem pure (a : α) : Answers (Pure.pure a : Except Fault α) := ⟨a, rfl⟩

theorem bind {x : Except Fault α} {f : α → Except Fault β} (hx : Answers x)
    (hf : ∀ a, x = .ok a → Answers (f a)) : Answers (x >>= f) := by
  obtain ⟨a, rfl⟩ := hx
  exact hf a rfl

theorem mapM {f : α → Except Fault β} {as : List α} (h : ∀ a ∈ as, Answers (f a)) :
    Answers (as.mapM f) := by
  induction as with
  | nil => exact ⟨[], rfl⟩
  | cons a as ih =>
    rw [List.mapM_cons]
    exact .bind (h a List.mem_cons_self) fun _ _ =>
      .bind (ih fun x hx => h x (List.mem_cons_of_mem _ hx)) fun _ _ => .pure _

theorem optionMapM {f : α → Except Fault β} {a? : Option α} (h : ∀ a ∈ a?, Answers (f a)) :
    Answers (a?.mapM f) := by
  cases a? with
  | none => exact ⟨none, rfl⟩
  | some a =>
    obtain ⟨b, hb⟩ := h a rfl
    exact ⟨some b, by simp only [Option.mapM_some, hb]; rfl⟩

end Answers

namespace Program

variable {p : Program}

/-! ## §3. Containers and roots. -/

theorem classesUpTo_answers (hp : p.Closed) {rank : DeclId → Nat}
    (hrank : ∀ {d c}, p.decls.get? d = some (.cls c) → ∀ m ∈ c.members, rank m < rank d)
    {fuel : Nat} (hd : d.index < p.decls.size) (hfuel : rank d < fuel) :
    Answers (p.classesUpTo fuel d) := by
  induction fuel generalizing d with
  | zero => exact absurd hfuel (Nat.not_lt_zero _)
  | succ fuel ih =>
    obtain ⟨content, hcontent⟩ := Arena.exists_get?_of_lt hd
    unfold classesUpTo
    rw [decl_eq_ok.2 hcontent, Except.ok_bind]
    cases content with
    | cls c =>
      refine .bind (.mapM fun m hm => ?_) fun _ _ => .pure _
      refine ih ?_ ((hrank hcontent m hm).trans_le (Nat.le_of_lt_succ hfuel))
      exact (closed_iff.1 hp).1 hcontent |>.1 m (by simp [Declaration.namedDecls, hm])
    | _ => exact .pure _

/-- **The containers of a program are found.** -/
theorem containers_answers (hp : p.Closed) (hacyclic : p.Acyclic) : Answers p.containers := by
  let Member : DeclId → DeclId → Prop :=
    fun d m => ∃ c, p.decls.get? d = some (.cls c) ∧ m ∈ c.members
  have hmem : ∀ {d m}, Member d m → m ∈ Handle.below .decl p.decls.size := by
    rintro d m ⟨c, hd, hm⟩
    obtain ⟨content, hcontent⟩ := hp.exists_decl hd (x := m) (by simp [Declaration.namedDecls, hm])
    exact Handle.mem_below.2 (Arena.lt_size_of_get? hcontent)
  have hcircle : ∀ d, ¬ Relation.TransGen Member d d := by
    intro d hcycle
    refine hacyclic (.decl d) (hcycle.lift Place.decl ?_)
    rintro a b ⟨c, ha, hb⟩
    exact .part ha (List.mem_map_of_mem hb)
  obtain ⟨rank, hrank, hbound⟩ := LambdaLift.exists_rank hmem hcircle
  refine .bind (.mapM fun d hd => ?_) fun _ _ => .pure _
  refine classesUpTo_answers hp (fun hd m hm => hrank ⟨_, hd, hm⟩) (hp.2.2.2 d hd) ?_
  exact Nat.lt_succ_of_le ((hbound d).trans (Handle.card_below_le _ _))

/-! ## §4. Types and names. -/

theorem declName_answers (hd : p.decls.get? d = some content) : Answers (p.declName d) :=
  .bind ⟨content, decl_eq_ok.2 hd⟩ fun _ _ => .pure _

theorem valueName_answers (hv : p.values.get? v = some value) : Answers (p.valueName v) :=
  .bind ⟨value, value_eq_ok.2 hv⟩ fun _ _ => .pure _

mutual
theorem tyText_answers :
    ∀ {ty : Ty}, (∀ d ∈ ty.classes, d.index < p.decls.size) → Answers (p.tyText ty)
  | .unit, _ | .int, _ | .bool, _ | .str, _ | .param _, _ => .pure _
  | .cls d, h => by
    obtain ⟨content, hd⟩ := Arena.exists_get?_of_lt (h d (by simp [Ty.classes]))
    exact declName_answers hd
  | .fn params ret, h =>
    .bind (tyTexts_answers fun d hd => h d (by simp [Ty.classes, hd])) fun _ _ =>
      .bind (tyText_answers fun d hd => h d (by simp [Ty.classes, hd])) fun _ _ => .pure _
theorem tyTexts_answers :
    ∀ {tys : List Ty}, (∀ d ∈ Ty.classesAll tys, d.index < p.decls.size) → Answers (p.tyTexts tys)
  | [], _ => .pure _
  | ty :: tys, h =>
    .bind (tyText_answers fun d hd => h d (by simp [Ty.classesAll, hd])) fun _ _ =>
      .bind (tyTexts_answers fun d hd => h d (by simp [Ty.classesAll, hd])) fun _ _ => .pure _
end

section

variable (hp : p.Closed)

include hp

theorem binderText_answers (hv : p.values.get? v = some value) : Answers (p.binderText v) := by
  refine .bind ⟨value, value_eq_ok.2 hv⟩ fun value' hvalue => ?_
  exact .bind (tyText_answers ((closed_iff.1 hp).values (value_eq_ok.1 hvalue)).2) fun _ _ =>
    .pure _

theorem paramsText_answers (hd : p.decls.get? d = some content) {params : List ValueId}
    (hparams : ∀ v ∈ params, v ∈ content.namedValues) : Answers (p.paramsText params) := by
  refine .bind (.mapM fun v hv => ?_) fun _ _ => .pure _
  obtain ⟨value, hvalue⟩ := hp.exists_value hd (hparams v hv)
  exact binderText_answers hp hvalue

/-! ## §5. One node, one header. -/

omit hp in
theorem argsText_answers {operand : ExprId → Except Fault String} {args : List (Option ExprId)}
    (h : ∀ x, some x ∈ args → Answers (operand x)) : Answers (argsText operand args) := by
  refine .bind (.mapM fun arg harg => ?_) fun _ _ => .pure _
  cases arg with
  | some x => exact h x harg
  | none => exact .pure _

omit hp in
theorem accessText_answers {operand : ExprId → Except Fault String} {a : Access}
    (h : ∀ x ∈ a.operands, Answers (operand x)) (hcallee : p.decls.get? a.callee = some content)
    (htypes : ∀ d ∈ Ty.classesAll a.typeArgs, d.index < p.decls.size) :
    Answers (p.accessText operand a) := by
  refine .bind (.optionMapM fun x hx => h x ?_) fun _ _ =>
    .bind (.optionMapM fun x hx => h x ?_) fun _ _ =>
    .bind (declName_answers hcallee) fun _ _ => .bind (tyTexts_answers htypes) fun _ _ => .pure _
  · simp [Access.operands, Option.mem_def.1 hx]
  · simp [Access.operands, Option.mem_def.1 hx]

/-- A node prints if its operands and what it places do. -/
theorem nodeText_answers (he : p.exprs.get? e = some node) {operand : ExprId → Except Fault String}
    {placed : DeclId → Except Fault String} (hoperand : ∀ x ∈ node.operands, Answers (operand x))
    (hplaced : ∀ d, node = .decl d → Answers (placed d)) :
    Answers (p.nodeText operand placed node) := by
  obtain ⟨hdecls, hvalues, -⟩ := (closed_iff.1 hp).exprs he
  have hname : ∀ d ∈ node.namedDecls, Answers (p.declName d) := fun d hd => by
    obtain ⟨content, hcontent⟩ := Arena.exists_get?_of_lt (hdecls d hd)
    exact declName_answers hcontent
  have hvalue : ∀ v ∈ node.namedValues, ∃ value, p.values.get? v = some value := fun v hv =>
    Arena.exists_get?_of_lt (hvalues v hv)
  have hsuffix : ∀ {word : String} {x? : Option ExprId}, (∀ x ∈ x?, Answers (operand x)) →
      Answers (nodeText.suffix operand word x?) := by
    intro word x? h
    cases x? with
    | none => exact .pure _
    | some x => exact .bind (h x rfl) fun _ _ => .pure _
  have howner : ∀ {x? : Option ExprId}, (∀ x ∈ x?, Answers (operand x)) →
      Answers (nodeText.owner operand x?) := by
    intro x? h
    cases x? with
    | none => exact .pure _
    | some x => exact .bind (h x rfl) fun _ _ => .pure _
  cases node with
  | lit value => exact .pure _
  | get v =>
    obtain ⟨value, hv⟩ := hvalue v (by simp [Expr.namedValues, Expr.used?])
    exact valueName_answers hv
  | set v source =>
    obtain ⟨value, hv⟩ := hvalue v (by simp [Expr.namedValues, Expr.used?])
    exact .bind (valueName_answers hv) fun _ _ =>
      .bind (hoperand source (by simp [Expr.operands])) fun _ _ => .pure _
  | var v init =>
    obtain ⟨value, hv⟩ := hvalue v (by simp [Expr.namedValues, Expr.bound?])
    exact .bind ⟨value, value_eq_ok.2 hv⟩ fun _ _ => .bind (binderText_answers hp hv) fun _ _ =>
      .bind (hsuffix fun x hx => hoperand x (by simpa [Expr.operands] using hx)) fun _ _ => .pure _
  | decl d => exact hplaced d rfl
  | access form a =>
    obtain ⟨content, hcallee⟩ :=
      Arena.exists_get?_of_lt (hdecls a.callee (by simp [Expr.namedDecls]))
    have htext : Answers (p.accessText operand a) := accessText_answers hoperand hcallee fun d hd =>
      hdecls d (by simp [Expr.namedDecls, hd])
    have hargs : Answers (argsText operand a.args) := argsText_answers fun x hx =>
      hoperand x (by simp [Expr.operands, Access.operands, hx])
    cases form with
    | call => exact .bind htext fun _ _ => .bind hargs fun _ _ => .pure _
    | new =>
      refine .bind ?_ fun _ _ => .bind hargs fun _ _ => .pure _
      refine .bind ⟨content.parent, parent_of_get? hcallee⟩ fun parent? hparent => ?_
      obtain rfl : content.parent = parent? := by simpa [parent_of_get? hcallee] using hparent
      cases hcls : content.parent with
      | none => exact .pure _
      | some cls =>
        obtain ⟨outer, houter⟩ := hp.exists_parent hcallee hcls
        exact declName_answers houter
    | ref =>
      refine .bind htext fun _ _ => ?_
      by_cases hempty : a.args.isEmpty = true
      · simp only [hempty, if_true]
        exact .pure _
      · simp only [hempty]
        exact .bind hargs fun _ _ => .pure _
  | getField field receiver =>
    exact .bind (hname field (by simp [Expr.namedDecls])) fun _ _ =>
      .bind (howner fun x hx => hoperand x (by simpa [Expr.operands] using hx)) fun _ _ => .pure _
  | setField field receiver value =>
    refine .bind (hname field (by simp [Expr.namedDecls])) fun _ _ =>
      .bind (howner fun x hx => hoperand x ?_) fun _ _ =>
      .bind (hoperand value (by simp [Expr.operands])) fun _ _ => .pure _
    simp [Expr.operands, Option.mem_def.1 hx]
  | ret target value =>
    exact .bind (hname target (by simp [Expr.namedDecls])) fun _ _ =>
      .bind (hoperand value (by simp [Expr.operands])) fun _ _ => .pure _
  | block stmts =>
    cases stmts with
    | nil => exact .pure _
    | cons s ss => exact .bind (.mapM fun x hx => hoperand x hx) fun _ _ => .pure _
  | branch cond thenE elseE =>
    refine .bind (hoperand cond (by simp [Expr.operands])) fun _ _ =>
      .bind (hoperand thenE (by simp [Expr.operands])) fun _ _ =>
        .bind (hsuffix fun x hx => hoperand x ?_) fun _ _ => .pure _
    simp [Expr.operands, Option.mem_def.1 hx]
  | loop cond body =>
    exact .bind (hoperand cond (by simp [Expr.operands])) fun _ _ =>
      .bind (hoperand body (by simp [Expr.operands])) fun _ _ => .pure _
  | binary op lhs rhs =>
    exact .bind (hoperand lhs (by simp [Expr.operands])) fun _ _ =>
      .bind (hoperand rhs (by simp [Expr.operands])) fun _ _ => .pure _
  | delegated v delegate accessors =>
    obtain ⟨value, hv⟩ := hvalue v (by simp [Expr.namedValues, Expr.bound?])
    exact .bind (valueName_answers hv) fun _ _ =>
      .bind (hoperand delegate (by simp [Expr.operands])) fun _ _ => .pure _
  | classRef cls => exact .bind (hname cls (by simp [Expr.namedDecls])) fun _ _ => .pure _

/-- A header prints if initializers do. -/
theorem headerText_answers (hd : p.decls.get? d = some content)
    {operand : ExprId → Except Fault String}
    (hoperand : ∀ x ∈ content.field?.bind (·.init), Answers (operand x)) :
    Answers (p.headerText operand content) := by
  obtain ⟨hdecls, -⟩ := (closed_iff.1 hp).decls hd
  cases content with
  | function f =>
    have hrest : Answers (p.paramsText f.params) ∧ Answers (p.tyText f.ret) :=
      ⟨paramsText_answers hp hd
        fun v hv => by simp [Declaration.namedValues, Declaration.params, hv],
        tyText_answers fun x hx => hdecls x (by simp [Declaration.namedDecls, hx])⟩
    obtain ⟨name, parent, origin, visibility, modality, typeParams, dispatch, extension, params,
      ret, body, accessorOf, overrides⟩ := f
    cases extension with
    | none =>
      exact .bind (.pure _) fun _ _ => .bind hrest.1 fun _ _ => .bind hrest.2 fun _ _ => .pure _
    | some v =>
      obtain ⟨value, hv⟩ := hp.exists_value hd (v := v) (by
        simp [Declaration.namedValues, Declaration.extensionReceiver])
      refine .bind ⟨value, value_eq_ok.2 hv⟩ fun value' hvalue => ?_
      exact .bind (tyText_answers ((closed_iff.1 hp).values (value_eq_ok.1 hvalue)).2) fun _ _ =>
        .bind (.pure _) fun _ _ => .bind hrest.1 fun _ _ => .bind hrest.2 fun _ _ => .pure _
  | constructor c =>
    refine .bind (paramsText_answers hp hd fun v hv => ?_) fun _ _ => .pure _
    simp [Declaration.namedValues, Declaration.params, hv]
  | cls c =>
    exact .bind (tyTexts_answers fun x hx => hdecls x (by simp [Declaration.namedDecls, hx]))
      fun _ _ => .pure _
  | property q =>
    exact .bind (tyText_answers fun x hx => hdecls x (by simp [Declaration.namedDecls, hx]))
      fun _ _ => .pure _
  | field f =>
    refine .bind
      (tyText_answers fun x hx => hdecls x (by simp [Declaration.namedDecls, hx])) fun _ _ => ?_
    cases hinit : f.init with
    | none => exact .pure _
    | some x => exact .bind (hoperand x hinit) fun _ _ => .pure _

/-- What has no initializer has a header. -/
theorem header_answers_of_field? (hd : p.decls.get? d = some content)
    (hfield : content.field? = none) : Answers (p.header d) := by
  unfold header depth headerUpTo
  rw [decl_eq_ok.2 hd]
  refine headerText_answers hp hd fun x hx => ?_
  rw [hfield] at hx
  cases hx

/-! ## §6. Declarations and expressions. -/

variable {rank : Place → Nat} (hrank : p.Ranks rank)

include hrank

/-- On one line everything prints to a depth above its rank. -/
theorem textUpTo_answers (fuel : Nat) :
    (∀ e : ExprId, e.index < p.exprs.size → rank (.expr e) < fuel → Answers (p.exprTextUpTo fuel e))
      ∧ ∀ d : DeclId, d.index < p.decls.size → rank (.decl d) < fuel →
        Answers (p.headerUpTo fuel d) := by
  induction fuel with
  | zero =>
    exact ⟨fun _ _ h => absurd h (Nat.not_lt_zero _), fun _ _ h => absurd h (Nat.not_lt_zero _)⟩
  | succ fuel ih =>
    obtain ⟨ihe, ihd⟩ := ih
    refine ⟨fun e he hfuel => ?_, fun d hd hfuel => ?_⟩
    · obtain ⟨node, hnode⟩ := Arena.exists_get?_of_lt he
      obtain ⟨hdecls, -, hoperands⟩ := (closed_iff.1 hp).exprs hnode
      unfold exprTextUpTo
      rw [expr_eq_ok.2 hnode]
      refine nodeText_answers hp hnode (fun x hx => ?_) fun d hd => ?_
      · exact ihe x (hoperands x hx) ((hrank.operand hnode x hx).trans_le (Nat.le_of_lt_succ hfuel))
      · subst hd
        exact ihd d (hdecls d (by simp [Expr.namedDecls]))
          ((hrank.placed hnode).trans_le (Nat.le_of_lt_succ hfuel))
    · obtain ⟨content, hcontent⟩ := Arena.exists_get?_of_lt hd
      unfold headerUpTo
      rw [decl_eq_ok.2 hcontent]
      refine headerText_answers hp hcontent fun x hx => ?_
      have hcode : content.code = some x := by
        cases content with
        | field f => exact hx
        | _ => cases hx
      exact ihe x (((closed_iff.1 hp).decls hcontent).2.2 x hcode)
        ((hrank.code hcontent hcode).trans_le (Nat.le_of_lt_succ hfuel))

/-- Over several lines everything prints to a depth above its rank. -/
theorem docUpTo_answers (fuel : Nat) :
    (∀ e : ExprId, e.index < p.exprs.size → rank (.expr e) < fuel → Answers (p.exprDocUpTo fuel e))
      ∧ ∀ d : DeclId, d.index < p.decls.size → rank (.decl d) < fuel →
        Answers (p.declDocUpTo fuel d) := by
  induction fuel with
  | zero =>
    exact ⟨fun _ _ h => absurd h (Nat.not_lt_zero _), fun _ _ h => absurd h (Nat.not_lt_zero _)⟩
  | succ fuel ih =>
    obtain ⟨ihe, ihd⟩ := ih
    refine ⟨fun e he hfuel => ?_, fun d hd hfuel => ?_⟩
    · obtain ⟨node, hnode⟩ := Arena.exists_get?_of_lt he
      obtain ⟨hdecls, -, hoperands⟩ := (closed_iff.1 hp).exprs hnode
      have hline : Answers (do return Text.Doc.text (← p.exprText e) : Except Fault Text.Doc) :=
        .bind ((textUpTo_answers hp hrank p.depth).1 e he (hrank.bound _)) fun _ _ => .pure _
      unfold exprDocUpTo
      rw [expr_eq_ok.2 hnode, Except.ok_bind]
      cases node with
      | block stmts =>
        cases stmts with
        | nil => exact hline
        | cons s ss =>
          refine .bind (.mapM fun x hx => ihe x (hoperands x hx) ?_) fun _ _ => .pure _
          exact (hrank.operand hnode x hx).trans_le (Nat.le_of_lt_succ hfuel)
      | decl d =>
        exact ihd d (hdecls d (by simp [Expr.namedDecls]))
          ((hrank.placed hnode).trans_le (Nat.le_of_lt_succ hfuel))
      | _ => exact hline
    · obtain ⟨content, hcontent⟩ := Arena.exists_get?_of_lt hd
      obtain ⟨hdecls, -, hcode⟩ := (closed_iff.1 hp).decls hcontent
      have hbody : ∀ x, content.code = some x → Answers (p.exprDocUpTo fuel x) := fun x hx =>
        ihe x (hcode x hx) ((hrank.code hcontent hx).trans_le (Nat.le_of_lt_succ hfuel))
      unfold declDocUpTo
      refine .bind ((textUpTo_answers hp hrank p.depth).2 d hd (hrank.bound _)) fun _ _ => ?_
      rw [decl_eq_ok.2 hcontent, Except.ok_bind]
      cases content with
      | function f =>
        obtain ⟨name, parent, origin, visibility, modality, typeParams, dispatch, extension, params,
          ret, body, accessorOf, overrides⟩ := f
        cases body with
        | none => exact .pure _
        | some x => exact .bind (hbody x rfl) fun _ _ => .pure _
      | constructor c =>
        obtain ⟨parent, isPrimary, visibility, dispatch, params, body⟩ := c
        cases body with
        | none => exact .pure _
        | some x => exact .bind (hbody x rfl) fun _ _ => .pure _
      | cls c =>
        obtain ⟨name, parent, origin, kind, visibility, modality, isInner, supertypes, this,
          members, scope⟩ := c
        cases members with
        | nil => exact .pure _
        | cons m ms =>
          refine .bind (.mapM fun x hx => ihd x (hdecls x ?_) ?_) fun _ _ => .pure _
          · simp only [Declaration.namedDecls, List.mem_append]
            exact .inr (.inl (.inl (.inr hx)))
          · exact (hrank.member hcontent x hx).trans_le (Nat.le_of_lt_succ hfuel)
      | property q => exact .pure _
      | field f => exact .pure _

omit hrank

/-- **Headers print.** -/
theorem header_answers (hacyclic : p.Acyclic) (hd : d.index < p.decls.size) :
    Answers (p.header d) := by
  obtain ⟨rank, hrank⟩ := hacyclic.exists_ranks hp
  exact (textUpTo_answers hp hrank p.depth).2 d hd (hrank.bound _)

/-- **Declarations print.** -/
theorem declDoc_answers (hacyclic : p.Acyclic) (hd : d.index < p.decls.size) :
    Answers (p.declDoc d) := by
  obtain ⟨rank, hrank⟩ := hacyclic.exists_ranks hp
  exact (docUpTo_answers hp hrank p.depth).2 d hd (hrank.bound _)

end

end Program

end LambdaLift
