/-
  LambdaLift.Proofs.Construction
  **BUILDING STEPS KEEP THE BOOKS.**

  Programs are built from nothing, one step at a time.  Some steps add
  several declarations before any of them is listed, and a class gets a
  receiver before it is there.  Nothing keeps a step from being given a
  declaration of the wrong kind: a function may be asked for in a field.
  Whatever is built, the books are in order after each step.

  Main results:
    * `Build.Ends.bind` — one step after the other;
    * `Op.run_ends` — each step succeeds and keeps the books;
    * `built_consistent` — so does every sequence of steps.
-/
import Mathlib
import LambdaLift.IR.Build
import LambdaLift.Proofs.Bookkeeping

namespace LambdaLift

variable {p p' : Program} {d k owner parent q : DeclId} {header : PropertyDecl}

namespace Build

variable {α β : Type} {p : Program}

/-! ## §1. Steps that succeed. -/

/-- A step succeeds from a program, and `post` holds of its answer and of what it leaves. -/
def Ends (b : Build α) (p : Program) (post : α → Program → Prop) : Prop :=
  ∃ a p', b p = .ok (a, p') ∧ post a p'

namespace Ends

variable {post : α → Program → Prop}

theorem pure {a : α} (h : post a p) : Ends (Pure.pure a) p post := ⟨a, p, rfl, h⟩

theorem mono {b : Build α} {post' : α → Program → Prop} (h : Ends b p post)
    (hpost : ∀ a p', post a p' → post' a p') : Ends b p post' := by
  obtain ⟨a, p', hb, ha⟩ := h
  exact ⟨a, p', hb, hpost a p' ha⟩

/-- One step after the other. -/
theorem bind {b : Build α} {f : α → Build β} {post : β → Program → Prop}
    (h : Ends b p fun a p' => Ends (f a) p' post) : Ends (b >>= f) p post := by
  obtain ⟨a, p', hb, c, p'', hf, hc⟩ := h
  refine ⟨c, p'', ?_, hc⟩
  show (b p >>= fun x => f x.1 x.2) = .ok (c, p'')
  rw [hb]
  exact hf

theorem map {b : Build α} {f : α → β} {post : β → Program → Prop}
    (h : Ends b p fun a p' => post (f a) p') : Ends (f <$> b) p post := by
  rw [← bind_pure_comp]
  exact bind (h.mono fun _ _ ha => pure ha)

theorem get {f : Program → Build β} {post : β → Program → Prop} (h : Ends (f p) p post) :
    Ends (MonadState.get >>= f) p post := h

theorem modify {f : Program → Program} {post : Unit → Program → Prop} (h : post () (f p)) :
    Ends (modify f : Build Unit) p post := ⟨(), f p, rfl, h⟩

theorem addDecl {content : Declaration} {post : DeclId → Program → Prop}
    (h : post p.decls.next (p.allocDecl content).2) :
    Ends (addDecl content) p post := ⟨_, _, rfl, h⟩

theorem addValue {value : Value} {post : ValueId → Program → Prop}
    (h : post p.values.next (p.allocValue value).2) : Ends (addValue value) p post := ⟨_, _, rfl, h⟩

theorem addExpr {node : Expr} {post : ExprId → Program → Prop}
    (h : post p.exprs.next (p.allocExpr node).2) : Ends (addExpr node) p post := ⟨_, _, rfl, h⟩

/-- A question about the program. -/
theorem ask {e : Except Fault α} {a : α} (he : e = .ok a) (h : post a p) :
    Ends (liftM e : Build α) p post := by
  subst he
  exact ⟨a, p, rfl, h⟩

theorem declAt {d : DeclId} {content : Declaration} (hd : p.decls.get? d = some content)
    {post : Declaration → Program → Prop} (h : post content p) : Ends (declAt d) p post :=
  get (ask (Program.decl_eq_ok.2 hd) h)

theorem modifyDecl {d : DeclId} {content : Declaration} {f : Declaration → Declaration}
    (hd : p.decls.get? d = some content) {post : Unit → Program → Prop}
    (h : post () (p.setDecl d (f content))) : Ends (modifyDecl d f) p post := by
  have hmodify : p.modifyDecl d f = .ok (p.setDecl d (f content)) := by
    unfold Program.modifyDecl
    rw [Program.decl_eq_ok.2 hd]
    rfl
  exact get (bind (ask hmodify ⟨(), _, rfl, h⟩))

end Ends

end Build

namespace Program

variable {p : Program} {pending pending' : List DeclId} {d : DeclId} {content : Declaration}

/-! ## §2. Entries and outlines. -/

theorem outline_of_get? (hd : p.decls.get? d = some content) :
    p.outline d = some content.outline := by
  unfold outline
  rw [hd]
  rfl

theorem exists_get?_of_outline {o : Outline} (h : p.outline d = some o) :
    ∃ content, p.decls.get? d = some content ∧ content.outline = o := Option.map_eq_some_iff.1 h

theorem exists_outline_iff : (∃ y, p.outline d = some y) ↔ d.index < p.decls.size := by
  rw [← Arena.get?_isSome_iff, Option.isSome_iff_exists]
  constructor
  · rintro ⟨y, hy⟩
    obtain ⟨content, hcontent, -⟩ := exists_get?_of_outline hy
    exact ⟨content, hcontent⟩
  · rintro ⟨content, hcontent⟩
    exact ⟨_, outline_of_get? hcontent⟩

theorem outline_setDecl (hd : p.decls.get? d = some content) (new : Declaration) (x : DeclId) :
    (p.setDecl d new).outline x = if x = d then some new.outline else p.outline x := by
  have hlt := Arena.lt_size_of_get? hd
  show ((p.decls.set d new).get? x).map _ = _
  rw [Arena.get?_set]
  by_cases hx : x = d
  · rw [if_pos ⟨hx, hlt⟩, if_pos hx]
    rfl
  · rw [if_neg (fun h => hx h.1), if_neg hx]
    rfl

theorem gains_allocDecl (p : Program) (content : Declaration) :
    p.Gains (p.allocDecl content).2 p.decls.next content.outline where
  fresh x := exists_outline_iff
  outline x := by
    show ((p.decls.alloc content).2.get? x).map _ = _
    rw [Arena.get?_alloc]
    split
    · rfl
    · rfl
  top := rfl
  values := .refl _

namespace Booked

variable (h : p.Booked pending)
include h

theorem allocValue (value : Value) : (p.allocValue value).2.Booked pending :=
  h.frame (fun _ => rfl) rfl (Arena.keeps_alloc _ _)

theorem allocExpr (node : Expr) : (p.allocExpr node).2.Booked pending :=
  h.frame (fun _ => rfl) rfl (.refl _)

/-- A declaration is overwritten by one with the same outline. -/
theorem setDecl (hd : p.decls.get? d = some content) {new : Declaration}
    (hnew : new.outline = content.outline) : (p.setDecl d new).Booked pending := by
  refine h.frame (fun x => ?_) rfl (.refl _)
  rw [outline_setDecl hd]
  split
  · next hx => rw [hx, hnew, outline_of_get? hd]
  · rfl

end Booked

/-- Nothing is recorded about nothing. -/
theorem booked_empty : ({} : Program).Booked [] := by
  have hnone : ∀ d, ({} : Program).outline d = none := by
    intro d
    show ((Arena.empty : Arena .decl Declaration).get? d).map _ = none
    rw [Arena.get?_empty]
    rfl
  have hregister : ∀ c, ({} : Program).register c = [] := by
    intro c
    cases c with
    | none => rfl
    | some k =>
      show ((({} : Program).outline k).map (·.members)).getD [] = []
      rw [hnone]
      rfl
  constructor
  · constructor <;> simp [hnone]
  · constructor <;> simp [hnone]
  · constructor <;> simp [hnone]
  · constructor <;> simp [hnone, hregister]

end Program

namespace Build

open Program

variable {p : Program} {pending pending' : List DeclId} {d : DeclId} {o : Outline}

/-! ## §3. Where a declaration goes. -/

/-- A parent that is given is there. -/
def HasParent (p : Program) (parent : Option DeclId) : Prop :=
  ∀ k, parent = some k → k.index < p.decls.size

theorem visibilityUnder_ends {parent : Option DeclId} (hparent : HasParent p parent) :
    Ends (visibilityUnder parent) p fun _ p' => p = p' := by
  cases parent with
  | none => exact .pure rfl
  | some k =>
    obtain ⟨content, hk⟩ := Arena.exists_get?_of_lt (hparent k rfl)
    exact .bind (.declAt hk (.pure rfl))

theorem receiverOf_ends {parent : Option DeclId} (hparent : HasParent p parent) :
    Ends (receiverOf parent) p fun v? p' => v? = p.receiverIn parent ∧ p = p' := by
  cases parent with
  | none => exact .pure ⟨rfl, rfl⟩
  | some k =>
    obtain ⟨content, hk⟩ := Arena.exists_get?_of_lt (hparent k rfl)
    refine .bind (.declAt hk (.pure ⟨?_, rfl⟩))
    show content.cls?.map (·.this) = (p.outline k).bind (·.this)
    rw [outline_of_get? hk]
    cases content <;> rfl

theorem outline_enlist (new : DeclId) (nameable : Bool) (content : Declaration) :
    (content.mapClass fun c =>
      { c with
        members := c.members ++ [new]
        scope.declared :=
          if nameable then c.scope.declared ++ [new] else c.scope.declared }).outline
      = content.outline.enlist new nameable := by
  cases content <;> rfl

/-- What is pending is listed where it belongs. -/
theorem attach_ends (h : p.Booked pending) (hd : d ∈ pending) (ho : p.outline d = some o)
    (hof : o.accessorOf = none) (hparent : HasParent p o.parent)
    (hpending : ∀ x, x ∈ pending' ↔ x ∈ pending ∧ x ≠ d) :
    Ends (attach o.parent d o.isNameable) p fun _ p' => p'.Booked pending' := by
  cases hk : o.parent with
  | none =>
    refine .modify (h.list ⟨fun x => ?_, ?_, .refl _⟩ hd ho hof hpending)
    · rw [hk]
      rfl
    · rw [hk, if_pos rfl]
  | some k =>
    obtain ⟨content, hcontent⟩ := Arena.exists_get?_of_lt (hparent k hk)
    refine .modifyDecl hcontent (h.list ⟨fun x => ?_, ?_, .refl _⟩ hd ho hof hpending)
    · rw [outline_setDecl hcontent, outline_enlist, hk]
      by_cases hx : x = k
      · rw [if_pos hx, hx, if_pos rfl, outline_of_get? hcontent]
        rfl
      · rw [if_neg hx, if_neg fun heq => hx (Option.some.inj heq).symm]
    · rw [hk, if_neg (by simp)]
      rfl

/-- A declaration is added and listed. -/
theorem declare_ends {content : Declaration} (h : p.Booked []) (hblank : content.outline.Blank)
    (hparent : HasParent p content.parent) (hnone : content.outline.accessorOf = none)
    (hpart : content.outline.backing = none)
    (hthis : content.outline.kind = .cls → ∃ v value, content.outline.this = some v
      ∧ p.values.get? v = some value
      ∧ value.kind = .dispatchReceiver ∧ value.ty = .cls p.decls.next ∧ value.owner = p.decls.next)
    (hdispatch : content.outline.kind = .function →
      content.outline.dispatch = p.receiverIn content.parent)
    (houter : content.outline.kind = .constructor →
      content.outline.dispatch = p.outerReceiver content.parent) :
    Ends (addDecl content >>= fun d => attach content.parent d content.outline.isNameable
      >>= fun _ => Pure.pure d) p
      fun _ p' => p'.Booked [] := by
  rw [← content.parent_outline] at hparent hdispatch houter ⊢
  have hadded : (p.allocDecl content).2.Booked [p.decls.next] := by
    refine h.add (gains_allocDecl p content) hblank hparent (fun b hb => ?_)
      (fun x => ?_) hthis hdispatch houter
    · rw [hpart] at hb
      cases hb
    · simp
  refine .bind (.addDecl
    (.bind ((attach_ends hadded List.mem_cons_self (gains_allocDecl p content).outline_new hnone
    (fun k hk => ?_) fun x => ?_).mono fun _ _ hbooked => .pure hbooked)))
  · show k.index < (p.decls.alloc content).2.size
    rw [Arena.size_alloc]
    exact Nat.lt_succ_of_lt (hparent k hk)
  · simp

/-! ## §4. The steps. -/

section

variable (h : p.Booked [])
include h

theorem function_ends {parent : Option DeclId} (hparent : HasParent p parent)
    (name : Name) (ret : Ty) : Ends (function parent name ret) p fun _ p' => p'.Booked [] := by
  refine .bind ((visibilityUnder_ends hparent).mono ?_)
  rintro visibility _ rfl
  refine .bind ((receiverOf_ends hparent).mono ?_)
  rintro receiver _ ⟨rfl, rfl⟩
  refine declare_ends h ⟨rfl, rfl, rfl, rfl, rfl, rfl⟩ hparent rfl rfl (fun hkind => ?_)
    (fun _ => rfl) fun hkind => ?_
  · cases hkind
  · cases hkind

/-- The receiver of a class is there before the class, which it names as its type and owner. -/
theorem cls_ends {parent : Option DeclId} (hparent : HasParent p parent) (name : Name)
    (kind : ClassKind) (isInner : Bool) :
    Ends (cls parent name kind isInner) p fun _ p' => p'.Booked [] := by
  refine .get
    (.bind (.addValue (.bind ((visibilityUnder_ends (p := (p.allocValue _).2) hparent).mono ?_))))
  rintro visibility _ rfl
  refine declare_ends (h.allocValue _) ⟨rfl, rfl, rfl, rfl, rfl, rfl⟩ hparent rfl rfl
    (fun _ => ?_) (fun hkind => ?_)
    fun hkind => ?_
  · exact ⟨_, _, rfl, Arena.get?_alloc_next _ _, rfl, rfl, rfl⟩
  · cases hkind
  · cases hkind

theorem constructor_ends (hparent : parent.index < p.decls.size) (isPrimary : Bool) :
    Ends (constructor parent isPrimary) p fun _ p' => p'.Booked [] := by
  obtain ⟨content, hcontent⟩ := Arena.exists_get?_of_lt hparent
  have hdeclare : ∀ v?, v? = p.outerReceiver (some parent) → Ends (addDecl (.constructor
      { parent := some parent, isPrimary, visibility := .everywhere,
        dispatchReceiver := v? }) >>= fun d =>
        attach (some parent) d false >>= fun _ => Pure.pure d) p fun _ p' => p'.Booked [] := by
    rintro _ rfl
    refine declare_ends h ⟨rfl, rfl, rfl, rfl, rfl, rfl⟩ (fun k hk => ?_) rfl rfl
      (fun hkind => ?_) (fun hkind => ?_) fun _ => rfl
    · cases hk
      exact hparent
    · cases hkind
    · cases hkind
  have hnone : content.outline.isInner = false → none = p.outerReceiver (some parent) := by
    intro hinner
    show none = ((p.outline parent).filter (·.isInner)).bind _
    rw [outline_of_get? hcontent, Option.filter_some, hinner]
    rfl
  refine .bind (.declAt hcontent ?_)
  cases content with
  | cls c =>
    show Ends (if c.isInner = true then _ else _) p _
    split
    · next hinner =>
      have houtline := outline_of_get? hcontent
      have hparent' : HasParent p c.parent := fun k hk =>
        (h.rooted.parent_lt parent _ k houtline hk).trans hparent
      refine .bind ((receiverOf_ends hparent').mono ?_)
      rintro receiver _ ⟨rfl, rfl⟩
      refine hdeclare _ ?_
      show _ = ((p.outline parent).filter (·.isInner)).bind _
      rw [houtline, Option.filter_some,
        if_pos (show (Declaration.cls c).outline.isInner = true from hinner)]
      rfl
    · next hinner => exact hdeclare none (hnone (Bool.eq_false_iff.2 hinner))
  | _ => exact hdeclare none (hnone rfl)

theorem field_ends (hparent : parent.index < p.decls.size) (name : Name) (ty : Ty)
    (init : Option ExprId) : Ends (field parent name ty init) p fun _ p' => p'.Booked [] := by
  refine declare_ends h ⟨rfl, rfl, rfl, rfl, rfl, rfl⟩ (fun k hk => ?_) rfl rfl
    (fun hkind => ?_) (fun hkind => ?_)
    fun hkind => ?_
  · cases hk
    exact hparent
  · cases hkind
  · cases hkind
  · cases hkind

theorem supertype_ends {d : DeclId} (hd : d.index < p.decls.size) (ty : Ty) :
    Ends (supertype d ty) p fun _ p' => p'.Booked [] := by
  obtain ⟨content, hcontent⟩ := Arena.exists_get?_of_lt hd
  refine .modifyDecl hcontent (h.setDecl hcontent ?_)
  cases content <;> rfl

/-- Only a function has an extension receiver. -/
theorem extensionReceiver_ends (howner : owner.index < p.decls.size) (ty : Ty) :
    Ends (extensionReceiver owner ty) p fun _ p' => p'.Booked [] := by
  obtain ⟨content, hcontent⟩ := Arena.exists_get?_of_lt howner
  refine .bind (.addValue (.bind (.modifyDecl (p := (p.allocValue _).2) hcontent (.pure ?_))))
  have hvalue := h.allocValue { name := .this, ty, owner, kind := .extensionReceiver }
  have hget : (p.allocValue { name := .this, ty, owner, kind := .extensionReceiver }).2.decls.get?
      owner = some content := hcontent
  cases content with
  | function f =>
    have houtline := outline_of_get? hget
    have hparams := hvalue.binding.params owner _ houtline
    refine hvalue.bind houtline (outline_setDecl hget _) rfl rfl (.refl _) hparams fun v hv => ?_
    cases hv
    exact ⟨_, Arena.get?_alloc_next _ _, rfl, rfl⟩
  | _ => exact hvalue.setDecl hcontent rfl

end

/-! ## §5. Steps in the middle of others. -/

/-- What was there has the outline it had. -/
def Kept (p p' : Program) : Prop := ∀ d o, p.outline d = some o → p'.outline d = some o

theorem Kept.trans {p p'' : Program} (h : Kept p p') (h' : Kept p' p'') : Kept p p'' :=
  fun d o ho => h' d o (h d o ho)

theorem Kept.lt {p : Program} (h : Kept p p') {d : DeclId} (hd : d.index < p.decls.size) :
    d.index < p'.decls.size := by
  obtain ⟨o, ho⟩ := exists_outline_iff.2 hd
  exact exists_outline_iff.1 ⟨o, h d o ho⟩

theorem Kept.receiverIn {p : Program} (h : Kept p p') (hk : k.index < p.decls.size) :
    p'.receiverIn (some k) = p.receiverIn (some k) := by
  obtain ⟨o, ho⟩ := exists_outline_iff.2 hk
  show (p'.outline k).bind _ = (p.outline k).bind _
  rw [ho, h k o ho]

section

variable (h : p.Booked pending)
include h

theorem setBody_ends {d : DeclId} (hd : d.index < p.decls.size) (body : ExprId) :
    Ends (setBody d body) p fun _ p' => p'.Booked pending ∧ Kept p p' := by
  obtain ⟨content, hcontent⟩ := Arena.exists_get?_of_lt hd
  have hsame : (content.withBody (some body)).outline = content.outline := by cases content <;> rfl
  refine .modifyDecl hcontent ⟨h.setDecl hcontent hsame, fun x o hx => ?_⟩
  rw [outline_setDecl hcontent]
  split
  · next hxd => rw [hsame, ← outline_of_get? hcontent, ← hxd, hx]
  · exact hx

theorem read_ends (v? : Option ValueId) :
    Ends (v?.mapM read) p fun _ p' => p'.Booked pending ∧ Kept p p' := by
  cases v? with
  | none => exact .pure ⟨h, fun _ _ hx => hx⟩
  | some v => exact .map (.addExpr ⟨h.allocExpr _, fun _ _ hx => hx⟩)

/-- A parameter that is given to what takes none belongs to nobody's parameters. -/
theorem param_ends (howner : owner.index < p.decls.size) (name : Name) (ty : Ty) :
    Ends (param owner name ty) p fun _ p' => p'.Booked pending ∧ p'.AkinTo p
      ∧ ∀ x, x ≠ owner → p'.outline x = p.outline x := by
  obtain ⟨content, hcontent⟩ := Arena.exists_get?_of_lt howner
  refine .bind (.declAt hcontent
    (.bind (.addValue (.bind (.modifyDecl (p := (p.allocValue _).2) hcontent (.pure ?_))))))
  have hvalue := h.allocValue { name, ty, owner, kind := .param content.params.length }
  have hget : (p.allocValue { name, ty, owner, kind := .param content.params.length }).2.decls.get?
      owner = some content := hcontent
  have houtline := outline_of_get? hget
  have hout := outline_setDecl hget (content.withParams (content.params ++ [p.values.next]))
  have hstem : (content.withParams (content.params ++ [p.values.next])).outline.stem
      = content.outline.stem := by
    cases content <;> rfl
  refine ⟨?_, fun x => ?_, fun x hx => (hout x).trans (if_neg hx)⟩
  · by_cases hcallable : content.isCallable = true
    · have hparams :
        (p.allocValue { name, ty, owner, kind := .param content.params.length }).2.BindsParams owner
          (content.params ++ [p.values.next]) := by
        have hbefore := h.binding.params owner _ (outline_of_get? hcontent)
        rw [content.params_outline] at hbefore
        exact hbefore.snoc (Arena.keeps_alloc _ _) ⟨_, Arena.get?_alloc_next _ _, rfl, rfl⟩
      have hextension := fun v => hvalue.binding.extension owner _ v houtline
      cases content with
      | function f => exact hvalue.bind houtline hout rfl rfl (.refl _) hparams hextension
      | constructor c => exact hvalue.bind houtline hout rfl rfl (.refl _) hparams hextension
      | _ => cases hcallable
    · refine hvalue.setDecl hget ?_
      cases content with
      | function f => exact absurd rfl hcallable
      | constructor c => exact absurd rfl hcallable
      | _ => rfl
  · rw [hout]
    split
    · next hx =>
      rw [hx, show p.outline owner = some content.outline from houtline]
      exact congrArg some hstem
    · rfl

end

/-! ## §6. Properties. -/

/-- The declaration is an accessor of a property in a parent. -/
def IsAccessor (p : Program) (parent q d : DeclId) : Prop :=
  ∃ o, p.outline d = some o ∧ o.kind = .function ∧ o.parent = some parent ∧ o.accessorOf = some q

theorem IsAccessor.kept {p : Program} {d : DeclId} (h : IsAccessor p parent q d)
    (hkept : Kept p p') : IsAccessor p' parent q d := by
  obtain ⟨o, ho, hrest⟩ := h
  exact ⟨o, hkept d o ho, hrest⟩

/-- A function as an accessor starts out. -/
structure Starts (p : Program) (k q : DeclId) (f : FunctionDecl) : Prop where
  parent : f.parent = some k
  dispatch : f.dispatchReceiver = p.receiverIn (some k)
  accessorOf : f.accessorOf = some q
  extension : f.extensionReceiver = none
  params : f.params = []

section

variable {parent q : DeclId} {f : FunctionDecl} (h : p.Booked pending)
  (hparent : parent.index < p.decls.size) (hf : Starts p parent q f)
include h hparent hf

/-- A new accessor is pending until its property is told. -/
theorem addAccessor_ends :
    Ends (addDecl (.function f)) p fun d p' => p'.Booked (d :: pending) ∧ IsAccessor p' parent q d
      ∧ Kept p p' ∧ (∀ o, p.outline d ≠ some o) ∧ d.index < p'.decls.size := by
  have hgains := gains_allocDecl p (.function f)
  refine .addDecl ⟨?_, ⟨_, hgains.outline_new, rfl, hf.parent, hf.accessorOf⟩,
    fun x o => hgains.outline_of_some, fun o => hgains.not_outline, ?_⟩
  · refine h.add hgains ⟨rfl, rfl, hf.params, hf.extension, rfl, rfl⟩ (fun k hk => ?_)
      (fun b hb => ?_) (fun x => ?_)
      (fun hkind => ?_) (fun _ => ?_) fun hkind => ?_
    · obtain rfl : parent = k := Option.mem_unique hf.parent hk
      exact hparent
    · cases hb
    · simp [Declaration.outline]
    · cases hkind
    · show f.dispatchReceiver = p.receiverIn f.parent
      rw [hf.parent]
      exact hf.dispatch
    · cases hkind
  · exact exists_outline_iff.1 ⟨_, hgains.outline_new⟩

theorem writer_ends (backing : DeclId) (this : Option ValueId) (ty : Ty) :
    Ends (property.writer ty backing this (.function f)) p fun d p' => p'.Booked (d :: pending)
      ∧ IsAccessor p' parent q d ∧ Kept p p' ∧ ∀ o, p.outline d ≠ some o := by
  refine .bind ((addAccessor_ends h hparent hf).mono ?_)
  rintro d p₁ ⟨hbooked₁, ⟨o, ho, hkind, hpar, hof⟩, hkept₁, hfresh, hlt⟩
  refine .bind ((param_ends hbooked₁ hlt _ ty).mono ?_)
  rintro v p₂ ⟨hbooked₂, hakin₂, hothers₂⟩
  refine .bind ((read_ends hbooked₂ this).mono ?_)
  rintro receiver p₃ ⟨hbooked₃, hkept₃⟩
  -- a parameter changes no kind, no parent and no property
  obtain ⟨o₂, ho₂, hoo⟩ := hakin₂.symm.exists_akin ho
  have hlt₃ : d.index < p₃.decls.size := exists_outline_iff.1 ⟨o₂, hkept₃ d o₂ ho₂⟩
  have hbooked₄ :=
    ((hbooked₃.allocExpr (.get v)).allocExpr (.setField backing receiver p₃.exprs.next))
  refine .bind (.addExpr (.bind
    (.addExpr (.bind (.addExpr (.bind ((setBody_ends (hbooked₄.allocExpr _) hlt₃ _).mono ?_)))))))
  rintro _ p₅ ⟨hbooked₅, hkept₅⟩
  have hkept : Kept p₂ p₅ := hkept₃.trans hkept₅
  refine .pure ⟨hbooked₅, ⟨o₂, hkept d o₂ ho₂, ?_, ?_, ?_⟩, fun x y hx => hkept x y ?_, hfresh⟩
  · exact hoo.kind ▸ hkind
  · exact hoo.parent ▸ hpar
  · exact hoo.accessorOf ▸ hof
  · rw [hothers₂ x fun heq => hfresh y (heq ▸ hx)]
    exact hkept₁ x y hx

end

/-- A pending property takes its accessors, which are pending too, and is listed. -/
theorem equip_ends {g : DeclId} {setter : Option DeclId} (h : p.Booked (setter.toList ++ [g, q]))
    (hparent : parent.index < p.decls.size)
    (hq : p.outline q = some (Declaration.property header).outline)
    (hheader : header.parent = some parent)
    (hblank : header.getter = none ∧ header.setter = none) (hg : IsAccessor p parent q g)
    (hs : ∀ s, setter = some s → IsAccessor p parent q s) (hgq : g ≠ q)
    (hne : setter ≠ some g ∧ setter ≠ some q) :
    Ends (modifyDecl q (fun _ => .property { header with getter := some g, setter }) >>= fun _ =>
      attach (some parent) q true >>= fun _ => Pure.pure q) p fun _ p' => p'.Booked [] := by
  obtain ⟨content, hcontent, -⟩ := exists_get?_of_outline hq
  have hout := outline_setDecl hcontent (.property { header with getter := some g, setter })
  have hequips : p.Equips (p.setDecl q (.property { header with getter := some g, setter })) q
      (Declaration.property header).outline (some g) setter := ⟨hq, hblank, hout, rfl, .refl _⟩
  have hlinked : (p.setDecl q (.property { header with getter := some g, setter })).Booked [q] := by
    refine h.link hequips (fun d hd => ?_)
      (fun d hd hset => hne.1 (Option.some.inj hd ▸ hset)) fun d => ?_
    · have haccessor : IsAccessor p parent q d := by
        rcases hd with hd | hd
        · exact Option.some.inj hd ▸ hg
        · exact hs d hd
      obtain ⟨o, ho, hkind, hpar, hof⟩ := haccessor
      refine ⟨?_, o, ho, hkind, hpar.trans hheader.symm, hof⟩
      rcases hd with hd | hd
      · simp [Option.some.inj hd]
      · simp [hd]
    · grind
  refine .bind (.modifyDecl hcontent (.bind ?_))
  have hnone : ∀ x, x ∈ ([] : List DeclId) ↔ x ∈ [q] ∧ x ≠ q := by simp
  have hattach := attach_ends hlinked List.mem_cons_self hequips.after rfl (fun k hk => ?_) hnone
  · rw [show ({ (Declaration.property header).outline with getter := some g, setter } :
      Outline).parent = some parent
      from hheader] at hattach
    exact hattach.mono fun _ _ hbooked => .pure hbooked
  · obtain rfl : parent = k := Option.mem_unique hheader hk
    show parent.index < (p.decls.set q _).size
    rw [Arena.size_set]
    exact hparent

/-- The backing field of a property comes first. -/
theorem addBacking_ends (h : p.Booked []) {f : FieldDecl} (hparent : HasParent p f.parent) :
    Ends (addDecl (.field f)) p fun b p' => p'.Booked
    [b] ∧ p'.outline b = some (Declaration.field f).outline ∧ Kept p p' := by
  have hgains := gains_allocDecl p (.field f)
  refine .addDecl ⟨?_, hgains.outline_new, fun x o => hgains.outline_of_some⟩
  refine h.add hgains ⟨rfl, rfl, rfl, rfl, rfl, rfl⟩ hparent (fun b hb => ?_)
    (fun x => ?_) (fun hkind => ?_)
    (fun hkind => ?_) fun hkind => ?_
  · cases hb
  · simp
  · cases hkind
  · cases hkind
  · cases hkind

/-- Its header takes the backing field along. -/
theorem addHeader_ends {b : DeclId} {f : FieldDecl} (h : p.Booked [b])
    (hb : p.outline b = some (Declaration.field f).outline) (hparent : HasParent p f.parent)
    (hheader : header.parent = f.parent ∧ header.backingField = some b)
    (hblank : header.getter = none ∧ header.setter = none) :
    Ends (addDecl (.property header)) p fun q p' => p'.Booked [q]
      ∧ p'.outline q = some (Declaration.property header).outline ∧ Kept p p' := by
  have hgains := gains_allocDecl p (.property header)
  refine .addDecl ⟨?_, hgains.outline_new, fun x o => hgains.outline_of_some⟩
  refine h.add hgains ⟨rfl, rfl, rfl, rfl, hblank.1, hblank.2⟩ (fun k hk => ?_)
    (fun d hd => ?_) (fun x => ?_)
    (fun hkind => ?_) (fun hkind => ?_) fun hkind => ?_
  · exact hparent k (hheader.1.symm.trans hk)
  · obtain rfl : b = d := Option.mem_unique hheader.2 hd
    exact ⟨List.mem_cons_self, _, hb, rfl, hheader.1.symm, rfl⟩
  · show x ∈ [p.decls.next] ↔ x = p.decls.next ∨ x ∈ [b] ∧ header.backingField ≠ some x
    rw [hheader.2]
    grind
  · cases hkind
  · cases hkind
  · cases hkind

/-- **A property is put together.**  Its backing field, its header and its accessors are pending one
after the other; the header takes the field at once and the accessors in the end, and is then
listed. -/
theorem property_ends (h : p.Booked []) (hparent : parent.index < p.decls.size) (name : Name)
    (ty : Ty) (isVar : Bool) : Ends (property parent name ty isVar) p fun _ p' => p'.Booked [] := by
  have hhas : HasParent p (some parent) := fun k hk => Option.some.inj hk ▸ hparent
  refine .bind ((receiverOf_ends hhas).mono ?_)
  rintro this _ ⟨rfl, rfl⟩
  refine .bind ((addBacking_ends h hhas).mono ?_)
  rintro b p₁ ⟨hbooked₁, hb, hkept₁⟩
  have hhas₁ : HasParent p₁ (some parent) := fun k hk => hkept₁.lt (hhas k hk)
  refine .bind ((addHeader_ends hbooked₁ hb hhas₁ ⟨rfl, rfl⟩ ⟨rfl, rfl⟩).mono ?_)
  rintro q p₂ ⟨hbooked₂, hq, hkept₂⟩
  have hkept₂ : Kept p p₂ := hkept₁.trans hkept₂
  refine .bind ((addAccessor_ends hbooked₂ (hkept₂.lt hparent)
    ⟨rfl, (hkept₂.receiverIn hparent).symm, rfl, rfl, rfl⟩).mono ?_)
  rintro g p₃ ⟨hbooked₃, hg, hkept₃, hfresh, hlt⟩
  have hgq : g ≠ q := fun heq => hfresh _ (heq ▸ hq)
  refine .bind ((read_ends hbooked₃ _).mono ?_)
  rintro receiver p₄ ⟨hbooked₄, hkept₄⟩
  have hbooked₅ := ((hbooked₄.allocExpr (.getField b receiver)).allocExpr (.ret g p₄.exprs.next))
  refine .bind (.addExpr (.bind (.addExpr (.bind (.addExpr (.bind
    ((setBody_ends (hbooked₅.allocExpr _) (hkept₄.lt hlt) _).mono ?_)))))))
  rintro _ p₆ ⟨hbooked₆, hkept₆⟩
  have hkept₆ : Kept p₃ p₆ := hkept₄.trans hkept₆
  have hparent₆ := hkept₆.lt (hkept₃.lt (hkept₂.lt hparent))
  have hg₆ := hg.kept hkept₆
  have hq₆ := hkept₆ _ _ (hkept₃ _ _ hq)
  cases isVar with
  | false =>
    have hpending : p₆.Booked ((none : Option DeclId).toList ++ [g, q]) := hbooked₆
    refine equip_ends hpending hparent₆ hq₆ rfl ⟨rfl, rfl⟩ hg₆ (fun s hs => ?_) hgq ?_
    · cases hs
    · simp
  | true =>
    refine .bind (.map ((writer_ends hbooked₆ hparent₆ ⟨rfl, ?_, rfl, rfl, rfl⟩ b _ ty).mono ?_))
    · rw [(hkept₂.trans (hkept₃.trans hkept₆)).receiverIn hparent]
    rintro s p₇ ⟨hbooked₇, hs, hkept₇, hfresh₇⟩
    have hne : some s ≠ some g ∧ some s ≠ some q := by
      obtain ⟨o, ho, -⟩ := hg₆
      exact ⟨fun heq => hfresh₇ o (Option.some.inj heq ▸ ho),
        fun heq => hfresh₇ _ (Option.some.inj heq ▸ hq₆)⟩
    have hpending : p₇.Booked ((some s).toList ++ [g, q]) := hbooked₇
    refine equip_ends hpending (hkept₇.lt hparent₆) (hkept₇ _ _ hq₆) rfl
      ⟨rfl, rfl⟩ (hg₆.kept hkept₇)
      (fun x hx => ?_) hgq hne
    exact Option.some.inj hx ▸ hs

end Build

/-! ## §7. Sequences of steps. -/

/-- A step that adds to a program. -/
inductive Op where
  | function (parent : Option DeclId) (name : Name) (ret : Ty)
  | lambda (parent : DeclId) (ret : Ty)
  | cls (parent : Option DeclId) (name : Name) (kind : ClassKind)
  | object (parent : DeclId)
  | innerClass (outer : DeclId) (name : Name)
  | constructor (parent : DeclId) (isPrimary : Bool)
  | property (parent : DeclId) (name : Name) (ty : Ty) (isVar : Bool)
  | field (parent : DeclId) (name : Name) (ty : Ty) (init : Option ExprId)
  | supertype (d : DeclId) (ty : Ty)
  | setBody (d : DeclId) (body : ExprId)
  | param (owner : DeclId) (name : Name) (ty : Ty)
  | extensionReceiver (owner : DeclId) (ty : Ty)
  | var (owner : DeclId) (name : Name) (ty : Ty) (isMutable : Bool)
  | expr (node : Expr)
  deriving Repr

namespace Op

/-- Takes the step; what it answers can be told from the program. -/
def run : Op → Build Unit
  | .function parent name ret => discard (Build.function parent name ret)
  | .lambda parent ret => discard (Build.lambda parent ret)
  | .cls parent name kind => discard (Build.cls parent name kind false)
  | .object parent => discard (Build.object parent)
  | .innerClass outer name => discard (Build.innerClass outer name)
  | .constructor parent isPrimary => discard (Build.constructor parent isPrimary)
  | .property parent name ty isVar => discard (Build.property parent name ty isVar)
  | .field parent name ty init => discard (Build.field parent name ty init)
  | .supertype d ty => Build.supertype d ty
  | .setBody d body => Build.setBody d body
  | .param owner name ty => discard (Build.param owner name ty)
  | .extensionReceiver owner ty => discard (Build.extensionReceiver owner ty)
  | .var owner name ty isMutable => discard (Build.var owner name ty isMutable)
  | .expr node => discard (Build.addExpr node)

/-- The declarations that the step is given. -/
def given : Op → List DeclId
  | .function parent _ _ | .cls parent _ _ => parent.toList
  | .lambda d _ | .object d | .innerClass d _ | .constructor d _ | .property d _ _ _
  | .field d _ _ _ | .supertype d _ | .setBody d _ | .param d _ _ | .extensionReceiver d _
  | .var d _ _ _ => [d]
  | .expr node => node.namedDecls

/-- **A step that is given declarations of the program succeeds and keeps the books.** -/
theorem run_ends (h : p.Booked []) {op : Op} (hop : ∀ d ∈ op.given, d.index < p.decls.size) :
    op.run.Ends p fun _ p' => p'.Booked [] := by
  have hparent : ∀ parent : Option DeclId, (∀ d ∈ parent.toList, d.index < p.decls.size) →
      Build.HasParent p parent :=
    fun parent hd k hk => hd k (by simp [hk])
  cases op with
  | function parent name ret => exact .map (Build.function_ends h (hparent parent hop) name ret)
  | lambda parent ret => exact .map (Build.function_ends h (hparent (some parent) hop) _ ret)
  | cls parent name kind => exact .map (Build.cls_ends h (hparent parent hop) name kind false)
  | object parent => exact .map (Build.cls_ends h (hparent (some parent) hop) _ _ false)
  | innerClass outer name => exact .map (Build.cls_ends h (hparent (some outer) hop) name _ true)
  | constructor parent isPrimary =>
    exact .map (Build.constructor_ends h (hop parent List.mem_cons_self) isPrimary)
  | property parent name ty isVar =>
    exact .map (Build.property_ends h (hop parent List.mem_cons_self) name ty isVar)
  | field parent name ty init =>
    exact .map (Build.field_ends h (hop parent List.mem_cons_self) name ty init)
  | supertype d ty => exact Build.supertype_ends h (hop d List.mem_cons_self) ty
  | setBody d body =>
    exact (Build.setBody_ends h (hop d List.mem_cons_self) body).mono fun _ _ hpost => hpost.1
  | param owner name ty =>
    exact .map
      ((Build.param_ends h (hop owner List.mem_cons_self) name ty).mono fun _ _ hpost => hpost.1)
  | extensionReceiver owner ty =>
    exact .map (Build.extensionReceiver_ends h (hop owner List.mem_cons_self) ty)
  | var owner name ty isMutable => exact .map (.addValue (h.allocValue _))
  | expr node => exact .map (.addExpr (h.allocExpr node))

/-- Takes the steps one after the other. -/
def runAll (ops : List Op) : Build Unit := ops.forM run

/-- The program after the step, if it succeeds. -/
def next? (op : Op) (p : Program) : Option Program := (op.run p).toOption.map Prod.snd

/-- Each step in turn is given only declarations that are there. -/
def InOrder : List Op → Program → Prop
  | [], _ => True
  | op :: ops, p => (∀ d ∈ op.given, d.index < p.decls.size) ∧ ∀ p' ∈ op.next? p, InOrder ops p'

instance : (ops : List Op) → (p : Program) → Decidable (InOrder ops p)
  | [], _ => inferInstanceAs (Decidable True)
  | op :: ops, p => by
    have hrest : ∀ p', Decidable (InOrder ops p') := instDecidableInOrder ops
    unfold InOrder
    infer_instance

/-- What each step keeps, all of them keep. -/
theorem runAll_ends (h : p.Booked []) {ops : List Op} (hops : InOrder ops p) :
    (runAll ops).Ends p fun _ p' => p'.Booked [] := by
  induction ops generalizing p with
  | nil => exact .pure h
  | cons op ops ih =>
    obtain ⟨hgiven, hrest⟩ := hops
    obtain ⟨a, p', hrun, hbooked⟩ := run_ends h hgiven
    have hnext : p' ∈ op.next? p := by
      unfold next?
      rw [hrun]
      rfl
    exact .bind ⟨a, p', hrun, ih hbooked (hrest p' hnext)⟩

end Op

namespace Program

variable {p : Program}

/-! ## §8. What follows. -/

/-- The books of a program are in order, and nothing is pending. -/
structure Consistent (p : Program) : Prop where
  booked : p.Booked []
  chains : p.ChainsEnd
  /-- different classes have different receivers -/
  receivers : ∀ d d' o o' v, p.outline d = some o → p.outline d' = some o' → o.this = some v →
    o'.this = some v → d = d'
  /-- a callable takes no parameter twice -/
  params : ∀ d o, p.outline d = some o → o.params.Nodup

theorem Rooted.parent_index_lt (h : p.Rooted) (hparent : p.Parent d k) : k.index < d.index := by
  obtain ⟨content, hd, hk⟩ := hparent
  exact h.parent_lt d _ k (outline_of_get? hd) (content.parent_outline ▸ hk)

/-- Chains go down, so they end. -/
theorem Rooted.chainsEnd (h : p.Rooted) : p.ChainsEnd := by
  intro i hi
  have hdown : ∀ {x y : DeclId}, Relation.TransGen p.Parent x y → y.index < x.index := by
    intro x y hxy
    induction hxy with
    | single hstep => exact h.parent_index_lt hstep
    | tail _ hstep ih => exact (h.parent_index_lt hstep).trans ih
  refine chain_ends (fun x hx => Arena.exists_get?_of_lt ?_) fun x _ hcycle =>
    absurd (hdown hcycle) (lt_irrefl _)
  rcases Relation.reflTransGen_iff_eq_or_transGen.1 hx with rfl | hancestor
  · exact hi
  · exact (hdown hancestor).trans hi

/-- Only classes have receivers, and a receiver names its class. -/
theorem Booked.consistent (h : p.Booked []) : p.Consistent where
  booked := h
  chains := h.rooted.chainsEnd
  receivers d d' o o' v ho ho' hv hv' := by
    have howner : ∀ d o, p.outline d = some o → o.this = some v → p.owner v = .ok d := by
      intro d o ho hv
      have hkind : o.kind = .cls := by
        obtain ⟨content, -, rfl⟩ := exists_get?_of_outline ho
        cases content with
        | cls c => rfl
        | _ => cases hv
      obtain ⟨v', value, hv', hvalue, -, -, howner⟩ := h.rooted.this d o ho hkind
      obtain rfl : v = v' := Option.mem_unique hv hv'
      unfold owner
      rw [value_eq_ok.2 hvalue]
      exact congrArg Except.ok howner
    exact Except.ok.inj ((howner d o ho hv).symm.trans (howner d' o' ho' hv'))
  params d o ho := (h.binding.params d o ho).nodup

end Program

/-- **Whatever is built has its books in order.**  Every sequence of steps from nothing, each of
which is given only declarations that are there, succeeds.  In the program that it builds parents
come before their children, so chains of parents end; each class has a receiver of its own, and
members and constructors of inner classes are called on the right one; parameters belong to their
callable at their position; each declaration is listed exactly once, by the module or by the class
it stands in, and is listed nowhere if it stands in anything else or is part of a property; each
part of a property is part of that property alone and stands where it stands; and a class offers by
name exactly the functions and properties that it lists. -/
theorem built_consistent (ops : List Op) (hops : Op.InOrder ops {}) :
    ∃ p, Build.fromEmpty (Op.runAll ops) = .ok ((), p) ∧ p.Consistent := by
  obtain ⟨_, p, hrun, hbooked⟩ := Op.runAll_ends Program.booked_empty hops
  exact ⟨p, hrun, hbooked.consistent⟩

/-- A class with a property and an inner class in a function, and steps that are given the wrong
kind of declaration: a property in a function, a function in a field, and a parameter and a body for
a class. -/
def Op.mixed : List Op :=
  [.function none (.ident "f") .int, .cls (some ⟨0⟩) (.ident "C") .plain, .constructor ⟨1⟩ true,
    .property ⟨1⟩ (.ident "x") .int true, .innerClass ⟨1⟩ (.ident "I"), .constructor ⟨7⟩ true,
    .param ⟨8⟩ (.ident "a") .int, .property ⟨0⟩ (.ident "y") .int false,
    .function (some ⟨9⟩) (.ident "g") .unit, .param ⟨1⟩ (.ident "b") .int, .setBody ⟨1⟩ ⟨0⟩]

/-- The class lists its constructor, its property and the inner class, and not the parts of the
property. -/
theorem built_consistent_mixed : ∃ p, Build.fromEmpty (Op.runAll Op.mixed) = .ok ((), p)
    ∧ p.register (some ⟨1⟩) = [⟨2⟩, ⟨4⟩, ⟨7⟩] ∧ p.register none = [⟨0⟩] ∧ p.Consistent := by
  obtain ⟨p, hbuilt, hconsistent⟩ := built_consistent Op.mixed (by decide +kernel)
  have hregisters : (Build.fromEmpty (Op.runAll Op.mixed)).toOption.map
      (fun r => (r.2.register (some ⟨1⟩), r.2.register none)) = some ([⟨2⟩, ⟨4⟩, ⟨7⟩], [⟨0⟩]) := by
    decide +kernel
  rw [hbuilt] at hregisters
  have heq := Prod.mk.inj (Option.some.inj hregisters)
  exact ⟨p, hbuilt, heq.1, heq.2, hconsistent⟩

end LambdaLift
