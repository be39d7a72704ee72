/-
  LambdaLift.Proofs.Raised
  **BUILDING SIGNATURES WRITES ONLY WHAT IT ADDED.**

  Nothing is assumed of the program but that its tables are those of the
  root.  Every declaration and value that was there stays as it was, and
  no expression changes, also if some signature cannot be built.  If all
  can, each replacement is a new declaration that mirrors what it
  replaces: it has the same code, and the accessors and the backing field
  of a lifted property are replacements themselves.  It owns its parameters
  and receivers, and stands in the destination, under the name composed for
  it, or under its old name in the replacement of its class.

  Main results:
    * `Ledger.raised` — what the form of replacements says about them;
    * `Lift.relocation_leaves` — what is left when all signatures are built,
      and when some could not be.
-/
import Mathlib
import LambdaLift.Proofs.Ledger

namespace LambdaLift

variable {p : Program} {v : ValueId} {settings : Settings} {kind : ValueKind}

/-! ## §1. What replacements look like. -/

/-- A declaration owns what it binds: its parameters, each at its position, the receiver of an
extension, and the instance of a class. -/
structure Program.OwnsBound (p : Program) (d : DeclId) (content : Declaration) : Prop where
  params : p.BindsParams d content.params
  extension : ∀ v ∈ content.extensionReceiver, p.Owns d v
  this : ∀ c ∈ content.cls?, p.Owns d c.this

theorem Program.ValueIs.owns {owner : DeclId} (h : p.ValueIs v owner kind) : p.Owns owner v := by
  obtain ⟨value, hv, howner, -⟩ := h
  exact ⟨value, hv, howner⟩

namespace Program.OwnsBound

variable {p q : Program} {d : DeclId} {content content' : Declaration}

theorem mono (h : p.OwnsBound d content) (hvalues : p.values.Keeps q.values) :
    q.OwnsBound d content where
  params x hx := (h.params x hx).mono hvalues
  extension v hv := by
    obtain ⟨value, hvalue, howner⟩ := h.extension v hv
    exact ⟨value, hvalues _ _ hvalue, howner⟩
  this c hc := by
    obtain ⟨value, hvalue, howner⟩ := h.this c hc
    exact ⟨value, hvalues _ _ hvalue, howner⟩

/-- What a declaration overrides and what can be named on it does not matter. -/
theorem of_erase (h : p.OwnsBound d content) (herase : content'.erase = content.erase) :
    p.OwnsBound d content' := by
  cases content with
  | function f =>
    obtain ⟨overrides, rfl⟩ := Declaration.eq_function_of_erase herase
    exact ⟨h.params, h.extension, by rintro c ⟨⟩⟩
  | constructor c =>
    cases Declaration.eq_constructor_of_erase herase
    exact h
  | cls c =>
    obtain ⟨scope, rfl⟩ := Declaration.eq_cls_of_erase herase
    refine ⟨h.params, h.extension, ?_⟩
    rintro c' ⟨⟩
    exact h.this c rfl
  | property x =>
    obtain ⟨overrides, rfl⟩ := Declaration.eq_property_of_erase herase
    exact ⟨h.params, h.extension, by rintro c ⟨⟩⟩
  | field f =>
    cases Declaration.eq_field_of_erase herase
    exact h

theorem field (p : Program) (d : DeclId) (f : FieldDecl) : p.OwnsBound d (.field f) :=
  ⟨by rintro x ⟨⟩, by rintro v ⟨⟩, by rintro c ⟨⟩⟩

theorem property (p : Program) (d : DeclId) (x : PropertyDecl) : p.OwnsBound d (.property x) :=
  ⟨by rintro x ⟨⟩, by rintro v ⟨⟩, by rintro c ⟨⟩⟩

end Program.OwnsBound

/-- Where the replacement of a declaration stands: a local function or class in the destination,
anything else in the replacement of its class. -/
def Site.Sends (site : Site) (p : Program) (r : Relocation) (d : DeclId)
    (parent : Option DeclId) : Prop :=
  d ∈ site.locals.lifted ∧ parent = site.destination p
    ∨ ∃ k new, site.Houses p d k ∧ k ∈ site.locals.classes.keys
    ∧ r.get? k = some new ∧ parent = some new

/-- How a replacement is called: what goes to the destination by the name composed for it, if its
chain ends, and what goes into the replacement of a class as it was called before. -/
def Site.Names (site : Site) (p : Program) (r : Relocation) (d : DeclId)
    (old new : Declaration) : Prop :=
  new.parent = site.destination p ∧ ((p.chain d).ending = .atModule →
      new.name = .ident (String.intercalate site.settings.separator (site.parts p d)))
    ∨ ∃ k x, r.get? k = some x ∧ new.parent = some x ∧ new.name = old.name

/-- Each part of a copied property replaces the part that stood there. -/
def Parts (p₀ : Program) (kind : Declaration → Prop) (old? x? : Option DeclId)
    (r : Relocation) : Prop :=
  ∀ x ∈ x?.toList, ∃ a content, old? = some a ∧ p₀.decls.get? a = some content
    ∧ kind content ∧ r.get? a = some x

/-- A replacement mirrors what it replaces. -/
def Mirrors (p : Program) (dest : Option DeclId) (r : Relocation) : Declaration → Declaration → Prop
  | .function f, .function g => g.body = f.body
  | .constructor c, .constructor c' => c'.body = c.body
  | .field f, .field g => g.init = f.init
  | .cls _, .cls c => c.members = [] ∧ c.parent = dest
  | .property q, .property q' =>
    Parts p (fun content => ∃ f, content = .function f) q.getter q'.getter r
    ∧ Parts p (fun content => ∃ f, content = .function f) q.setter q'.setter r
    ∧ Parts p (fun content => ∃ f, content = .field f) q.backingField q'.backingField r
  | _, _ => False

namespace Mirrors

variable {p : Program} {dest : Option DeclId} {r r' : Relocation} {old new new' : Declaration}

/-- What a replacement overrides and what can be named on it does not matter. -/
theorem of_erase (h : Mirrors p dest r old new) (herase : new'.erase = new.erase) :
    Mirrors p dest r old new' := by
  cases old <;> cases new <;> try exact h.elim
  case function.function =>
    obtain ⟨overrides, rfl⟩ := Declaration.eq_function_of_erase herase
    exact h
  case constructor.constructor =>
    cases Declaration.eq_constructor_of_erase herase
    exact h
  case cls.cls =>
    obtain ⟨scope, rfl⟩ := Declaration.eq_cls_of_erase herase
    exact h
  case property.property =>
    obtain ⟨overrides, rfl⟩ := Declaration.eq_property_of_erase herase
    exact h
  case field.field =>
    cases Declaration.eq_field_of_erase herase
    exact h

/-- A replacement has the code of what it replaces. -/
theorem code_eq (h : Mirrors p dest r old new) : new.code = old.code := by
  cases old <;> cases new <;> first | exact h.elim | exact h | rfl

end Mirrors

/-- The replacements recorded so far are new declarations that mirror what they replace and own what
they bind, no two are the same, and classes keep captured values in new fields of theirs that
replace nothing.  A class that was added is a replacement. -/
structure Raised (p₀ : Program) (site : Site) (r : Relocation) (p : Program) : Prop where
  grown : p₀.Extends p
  images : ∀ {d x}, r.get? d = some x → p₀.decls.size ≤ x.index ∧ ∃ old new, site.Reaches p₀ d old
    ∧ p.decls.get? x = some new ∧ Mirrors p₀ (site.destination p₀) r old new
  injective : ∀ {d d' x}, r.get? d = some x → r.get? d' = some x → d = d'
  classes : ∀ {d this captured}, r.contexts.get? d = some (.fields this captured) →
    ∃ c, p₀.decls.get? d = some (.cls c)
  fields : ∀ {d this captured}, r.contexts.get? d = some (.fields this captured) →
    ∀ f ∈ captured.values, (∀ d', r.get? d' ≠ some f) ∧ p₀.decls.size ≤ f.index
      ∧ ∃ content, p.decls.get? f = some (.field content)
  bound : ∀ {d x content}, r.get? d = some x → p.decls.get? x = some content → p.OwnsBound x content
  homes : ∀ {d x content}, r.get? d = some x → p.decls.get? x = some content →
    site.Sends p₀ r d content.parent
  fieldHomes : ∀ {d this captured}, r.contexts.get? d = some (.fields this captured) →
    ∀ f ∈ captured.values, ∃ new content, r.get? d = some new ∧ p.decls.get? f = some content
    ∧ content.parent = some new
  names : ∀ {d x old new}, r.get? d = some x → p₀.decls.get? d = some old →
    p.decls.get? x = some new →
    site.Names p₀ r d old new
  added : ∀ {x c}, p.decls.get? x = some (.cls c) → x.index < p₀.decls.size ∨ ∃ d, r.get? d = some x

/-- The replacement of a class lists the replacement of a member, or the field of a captured
value. -/
def Relocation.Lists (r : Relocation) (p₀ : Program) (x y : DeclId) : Prop :=
  ∃ d, r.get? d = some x
    ∧ ((∃ c m, p₀.decls.get? d = some (.cls c) ∧ m ∈ c.members ∧ r.get? m = some y)
      ∨ ∃ this captured, r.contexts.get? d = some (.fields this captured) ∧ y ∈ captured.values)

/-! ## §2. What the form of a replacement says about it. -/

section

variable {p₀ p : Program} {site : Site} {r : Relocation} {d new : DeclId}
  {old content : Declaration}

theorem Program.Twin.valueIs {x : ValueId} (h : p.Twin new kind v x) : p.ValueIs x new kind := by
  obtain ⟨value, -, hx⟩ := h
  exact ⟨_, hx, rfl, rfl⟩

/-- Parameters that are numbered as they were made. -/
theorem bindsParams_of_numbered {p : Program} {new : DeclId} {vs xs : List ValueId} {start : Nat}
    (h : List.Forall₂ (fun a x => p.ValueIs x new (.param a.2)) (vs.zipIdx start) xs) :
    ∀ x ∈ xs.zipIdx start, p.ValueIs x.1 new (.param x.2) := by
  induction vs generalizing xs start with
  | nil =>
    cases h
    exact fun x hx => by cases hx
  | cons v vs ih =>
    cases h with
    | cons hx hxs =>
      rintro x hmem
      rcases List.mem_cons.1 hmem with rfl | hmem
      · exact hx
      · exact ih hxs x hmem

theorem Signs.bindsParams {taken before params : List ValueId}
    (h : Signs settings r p d new taken before params) : p.BindsParams new params := by
  obtain ⟨caps, copies, rfl, hcaps, hcopies, -⟩ := h
  have hlength : caps.length = taken.length := by simpa using hcaps.length_eq.symm
  intro x hx
  rw [List.zipIdx_append, List.mem_append, hlength, Nat.zero_add] at hx
  rcases hx with hx | hx
  · exact bindsParams_of_numbered (hcaps.imp fun _ _ ⟨_, value, _, hx⟩ => ⟨_, hx, rfl, rfl⟩) x hx
  · exact bindsParams_of_numbered (hcopies.imp fun _ _ hlinks => hlinks.2.valueIs) x hx

theorem RenewsPart.parts {kind : Declaration → Prop} {old? new? : Option DeclId}
    (h : RenewsPart p₀ r kind old? new?) : Parts p₀ kind old? new? r := by
  intro x hx
  obtain ⟨a, ha, hax, content, hcontent, hkind⟩ := optionRel_left h (Option.mem_toList.1 hx)
  exact ⟨a, content, ha, hcontent, hkind, hax⟩

theorem Renews.mirrors (h : Renews p₀ site r p d new old content) :
    Mirrors p₀ (site.destination p₀) r old content := by
  cases h with
  | cls => exact ⟨rfl, rfl⟩
  | property _ hbacking hgetter hsetter => exact ⟨hgetter.parts, hsetter.parts, hbacking.parts⟩
  | _ => exact rfl

theorem Renews.ownsBound (h : Renews p₀ site r p d new old content) : p.OwnsBound new content := by
  have howns : ∀ {kind : ValueKind} {v? x? : Option ValueId},
      Option.Rel (Links r p new kind) v? x? →
      ∀ x ∈ x?, p.Owns new x := by
    intro kind v? x? hrel x hx
    obtain ⟨v, -, hlinks⟩ := optionRel_left hrel hx
    exact hlinks.2.valueIs.owns
  cases h with
  | function _ _ _ _ hext hsigns => exact ⟨hsigns.bindsParams, howns hext, by rintro c ⟨⟩⟩
  | cls _ _ _ _ howned =>
    refine ⟨by rintro x ⟨⟩, by rintro v ⟨⟩, ?_⟩
    rintro c ⟨⟩
    exact howned.owns
  | constructor _ _ _ _ _ hsigns => exact ⟨hsigns.bindsParams, by rintro v ⟨⟩, by rintro c ⟨⟩⟩
  | method _ _ _ hext hparams =>
    exact ⟨bindsParams_of_numbered (hparams.imp fun _ _ hlinks => hlinks.2.valueIs),
      howns hext, by rintro c ⟨⟩⟩
  | property => exact .property _ _ _
  | field => exact .field _ _ _

/-- Where a replacement stands. -/
theorem Renews.sends (h : Renews p₀ site r p d new old content)
    (hold : p₀.decls.get? d = some old) : site.Sends p₀ r d content.parent := by
  cases h with
  | function hlisted => exact .inl ⟨List.mem_append_left _ hlisted, rfl⟩
  | cls hlisted => exact .inl ⟨List.mem_append_right _ hlisted, rfl⟩
  | constructor hk hlisted hnew => exact .inr ⟨_, _, .inl ⟨_, hold, hk⟩, hlisted, hnew, rfl⟩
  | method _ hlodges | property hlodges | field hlodges =>
    exact .inr ⟨_, _, hlodges.houses, hlodges.listed, hlodges.new, rfl⟩

theorem Renews.site_names (h : Renews p₀ site r p d new old content) :
    site.Names p₀ r d old content := by
  cases h with
  | function _ _ hname | cls _ _ hname => exact .inl ⟨rfl, hname⟩
  | constructor _ _ hnew => exact .inr ⟨_, _, hnew, rfl, rfl⟩
  | method _ hlodges | property hlodges | field hlodges => exact .inr ⟨_, _, hlodges.new, rfl, rfl⟩

/-- What a context was recorded for: a callable that takes what was captured, or a class that keeps
it. -/
theorem Ledger.of_context (h : Ledger p₀ site none r p) (hsorted : p₀.Sorted site.root site.locals)
    {context : Context} (hcontext : r.contexts.get? d = some context) :
    (∃ k closure new before params, site.closures.get? k = some closure ∧ r.get? d = some new
      ∧ Signs site.settings r p d new closure.toList before params)
    ∨ ∃ c closure new this fields, p₀.decls.get? d = some (.cls c)
    ∧ site.closures.get? d = some closure
      ∧ r.get? d = some new ∧ r.values.forth? c.this = some this
      ∧ List.Forall₂ (KeepsField site.settings p new) closure.toList fields
      ∧ (∀ f ∈ fields, p₀.decls.size ≤ f.index)
      ∧ context = .fields this (.ofList (closure.toList.zip fields)) := by
  obtain ⟨hsome, hkind⟩ := h.contexts hcontext
  obtain ⟨new, hnew⟩ := Option.isSome_iff_exists.1 hsome
  obtain ⟨old, hreach⟩ := h.reaches hnew
  obtain ⟨content, hcontent, hrenews⟩ := h.renews hnew hreach.1
  have hold : (∃ f, old = .function f) ∧ d ∈ site.locals.functions.keys ∨ (∃ c, old = .cls c)
      ∨ ∃ c, old = .constructor c := by
    rcases hkind with hlifted | hconstructor
    · rcases List.mem_append.1 hlifted with hd | hd
      · obtain ⟨-, -, f, hf⟩ := (hsorted.functions d).1 hd
        exact .inl ⟨⟨f, Option.mem_unique hreach.1 hf⟩, hd⟩
      · obtain ⟨-, -, c, hc⟩ := (hsorted.classes d).1 hd
        exact .inr (.inl ⟨c, Option.mem_unique hreach.1 hc⟩)
    · obtain ⟨-, c, hc⟩ := (hsorted.constructors d).1 hconstructor
      exact .inr (.inr ⟨c, Option.mem_unique hreach.1 hc⟩)
  generalize content.erase = content' at hrenews
  cases hrenews with
  | function _ hclosure _ _ _ hsigns | constructor _ _ _ hclosure _ hsigns =>
    exact .inl ⟨_, _, new, _, _, hclosure, hnew, hsigns⟩
  | @cls c closure _ this fields _ hclosure _ hforth _ hfields _ hlow hfields' =>
    exact .inr ⟨c, closure, new, this, fields, hreach.1, hclosure, hnew, hforth, hfields, hlow,
      Option.mem_unique hcontext hfields'⟩
  | method hnot =>
    obtain ⟨-, hd⟩ | ⟨_, ⟨⟩⟩ | ⟨_, ⟨⟩⟩ := hold
    exact absurd hd hnot
  | property | field => obtain ⟨⟨_, ⟨⟩⟩, -⟩ | ⟨_, ⟨⟩⟩ | ⟨_, ⟨⟩⟩ := hold

/-- Only classes keep captured values in fields. -/
theorem Ledger.of_fields (h : Ledger p₀ site none r p) (hsorted : p₀.Sorted site.root site.locals)
    {this : ValueId} {captured : OrderedMap ValueId DeclId}
    (hcontext : r.contexts.get? d = some (.fields this captured)) :
    ∃ c closure new, p₀.decls.get? d = some (.cls c) ∧ site.closures.get? d = some closure
      ∧ r.get? d = some new
      ∧ List.Forall₂ (KeepsField site.settings p new) closure.toList captured.values
      ∧ ∀ f ∈ captured.values, p₀.decls.size ≤ f.index := by
  obtain ⟨_, _, _, _, _, -, -, _, _, -, -, -, hparams⟩ | ⟨c, closure, new, this', fields, hc,
      hclosure, hnew, -, hfields,
    hlow, heq⟩ := h.of_context hsorted hcontext
  · cases hparams.symm.trans hcontext
  · cases heq
    rw [OrderedMap.values_ofList_zip closure.nodup hfields.length_eq]
    exact ⟨c, closure, new, hc, hclosure, hnew, hfields, hlow⟩

/-- **What the form of replacements says about them.** -/
theorem Ledger.raised (h : Ledger p₀ site none r p) (hsorted : p₀.Sorted site.root site.locals) :
    Raised p₀ site r p where
  grown := h.grown
  images hx := by
    obtain ⟨old, hreach⟩ := h.reaches hx
    obtain ⟨content, hcontent, hrenews⟩ := h.renews hx hreach.1
    exact ⟨(h.images hx).1, old, content, hreach, hcontent,
      hrenews.mirrors.of_erase (content.erase_erase).symm⟩
  injective := h.injective
  classes hcontext := by
    obtain ⟨c, -, -, hc, -⟩ := h.of_fields hsorted hcontext
    exact ⟨c, hc⟩
  fields hcontext f hf := by
    obtain ⟨_, _, new, -, -, -, hfields, hlow⟩ := h.of_fields hsorted hcontext
    obtain ⟨v, -, value, -, hfield⟩ := forall₂_left hfields hf
    exact ⟨(h.fields hcontext f hf).2, hlow f hf, _, hfield⟩
  bound hx hcontent := by
    obtain ⟨old, hreach⟩ := h.reaches hx
    obtain ⟨content', hcontent', hrenews⟩ := h.renews hx hreach.1
    cases hcontent.symm.trans hcontent'
    exact hrenews.ownsBound.of_erase (Declaration.erase_erase _).symm
  homes hx hcontent := by
    obtain ⟨old, hreach⟩ := h.reaches hx
    obtain ⟨content', hcontent', hrenews⟩ := h.renews hx hreach.1
    cases hcontent.symm.trans hcontent'
    rw [← Declaration.parent_erase]
    exact hrenews.sends hreach.1
  fieldHomes hcontext f hf := by
    obtain ⟨_, _, new, -, -, hnew, hfields, -⟩ := h.of_fields hsorted hcontext
    obtain ⟨v, -, value, -, hfield⟩ := forall₂_left hfields hf
    exact ⟨new, _, hnew, hfield, rfl⟩
  names hx hold hcontent := by
    obtain ⟨content', hcontent', hrenews⟩ := h.renews hx hold
    cases hcontent.symm.trans hcontent'
    have hnames := hrenews.site_names
    unfold Site.Names at hnames ⊢
    rwa [Declaration.parent_erase, Declaration.name_erase] at hnames
  added {x c} hx := by
    by_cases hlt : x.index < p₀.decls.size
    · exact .inl hlt
    · obtain hd | ⟨_, -, _, _, -, _, -, hfield⟩ := h.added (Nat.le_of_not_lt hlt) hx
      · exact .inr hd
      · cases hx.symm.trans hfield

end

/-- **All signatures are built**, or some could not be: either way nothing that was there has
changed. -/
theorem Lift.relocation_leaves {site : Site} {w : Work}
    (hsorted : w.program.Sorted site.root site.locals) (hcollects : w.program.Collects site.root) :
    (relocation site).Leaves w (fun r w' => Raised w.program site r w'.program)
      fun w' => w.program.Extends w'.program :=
  ((relocation_yields hsorted hcollects).mono fun _ _ h => h.1.raised hsorted).weaken fun _ _ h =>
    h.1

/-- What is left after all signatures of a root were built. -/
theorem raised_of_relocation {q : Program} {root : DeclId} {l : Locals} {closures : Closures}
    {r : Relocation} {events events' : List Event} (hlocals : p.locals root = .ok l)
    (hrelocation : Lift.relocation ⟨settings, root, l, closures⟩ ⟨p, events⟩ = .ok r ⟨q, events'⟩) :
    Raised p ⟨settings, root, l, closures⟩ r q :=
  (ledger_of_relocation hlocals hrelocation).1.raised (Program.locals_spec hlocals).1

end LambdaLift
