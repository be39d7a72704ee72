/-
  LambdaLift.Proofs.Preservation
  **LIFTING KEEPS THE MEANING OF PROGRAMS OF FUNCTIONS.**

  The roots of a program of functions are lowered one after the other.  The
  functions of the roots that have come are translated, those of the others
  are as they were, and lowering one more root touches neither the code nor
  the values of the functions of other roots.  So in the end the whole
  program is translated, and runs come to the same.

  A callee is handed what it captured before its arguments are evaluated.
  An argument that assigns such a value comes too late: this is the one
  thing that a program must not do.

  Main results:
    * `Translating.step` — one root more;
    * `Lowering.lower_translates` — a whole run;
    * `lower_run_eq` — runs come to the same.
-/
import Mathlib
import LambdaLift.Proofs.Handed
import LambdaLift.Proofs.Safety

namespace LambdaLift

variable {P p : Program} {d other root x : DeclId} {ds : List DeclId} {e : ExprId} {v : ValueId}
  {node : Expr} {f : FunctionDecl}

open Program

/-! ## §1. Programs of functions. -/

namespace Program

/-- A program consists of functions: the functions that the module lists are roots of nested
functions, which have nothing in common. -/
structure OfFunctions (P : Program) : Prop where
  sound : P.Sound
  listed : P.top.Nodup
  nests : ∀ root ∈ P.top, P.Nest root
  apart : ∀ root ∈ P.top, ∀ root' ∈ P.top, root ≠ root' → ∀ x ∈ P.occurrencesBelow root,
    ∀ y ∈ P.occurrencesBelow root', x.2.entry ≠ y.2.entry

/-- No argument of a call assigns a value that the callee captures. -/
def ArgumentsKeep (P : Program) : Prop :=
  ∀ {root ds e a u x}, root ∈ P.top → Occurs P root ds (.expr e) →
    P.exprs.get? e = some (.access .call a) →
    Captured P root a.callee u → some x ∈ a.args → ¬ P.Writes x u

/-- A function below the root assigns a value that it captured. -/
def AssignsCaptured (P : Program) (root : DeclId) : Prop :=
  ∃ d e v source, P.Placed root d ∧ CodeOf P d e ∧ P.exprs.get? e = some (.set v source)
    ∧ Captured P root d v

namespace OfFunctions

variable {P : Program} (h : P.OfFunctions) {root root' : DeclId}
include h

theorem parent_eq (hd : d ∈ P.top) (hf : P.decls.get? d = some (.function f)) :
    f.parent = none := by
  obtain ⟨f', hf', hparent, -⟩ := (h.nests d hd).outermost
  cases hf.symm.trans hf'
  exact hparent

/-- Nothing stands below two roots. -/
theorem root_unique (hroot : root ∈ P.top) (hroot' : root' ∈ P.top) {ds' : List DeclId}
    {place place' : Place} (hocc : Occurs P root ds place) (hocc' : Occurs P root' ds' place')
    (hentry : place.entry = place'.entry) : root = root' := by
  by_contra hne
  obtain ⟨label, hlabel⟩ := (h.nests root hroot).shaped.exists_label hocc
  obtain ⟨label', hlabel'⟩ := (h.nests root' hroot').shaped.exists_label hocc'
  refine h.apart root hroot root' hroot' hne _
    ((h.nests root hroot).shaped.mem_iff.1 ⟨_, hocc, hlabel⟩) _
    ((h.nests root' hroot').shaped.mem_iff.1 ⟨_, hocc', hlabel'⟩) ?_
  rw [entry_of_label hlabel, entry_of_label hlabel', hentry]

/-- A function belongs to one root. -/
theorem functionOf_unique (hroot : root ∈ P.top) (hroot' : root' ∈ P.top) (hd : P.FunctionOf root d)
    (hd' : P.FunctionOf root' d) : root = root' := by
  rcases hd with rfl | hplaced
  · exact hd'.resolve_right ((h.nests root' hroot').not_placed_of_mem_top hroot)
  · rcases hd' with rfl | hplaced'
    · exact absurd hplaced ((h.nests root hroot).not_placed_of_mem_top hroot')
    · obtain ⟨ds, hocc⟩ := hplaced.occurs
      obtain ⟨ds', hocc'⟩ := hplaced'.occurs
      exact h.root_unique hroot hroot' hocc hocc' rfl

end OfFunctions

/-- What code calls and returns from is a function of its root, or one that the module lists. -/
theorem Nest.callee_cases (h : P.Nest root) (hd : P.FunctionOf root d) (he : CodeOf P d e)
    (hnode : P.exprs.get? e = some node)
    (hx : (∃ a, node = .access .call a ∧ x = a.callee) ∨ ∃ value, node = .ret x value) :
    P.FunctionOf root x ∨ x ∈ P.top := by
  obtain ⟨ds, howner, -⟩ := h.exists_scopes hd
  have hocc := howner.occurs he
  have hscoped := h.nodeScoped hocc hnode
  obtain ⟨a, rfl, rfl⟩ | ⟨value, rfl⟩ := hx
  · by_cases hplaced : P.Placed root a.callee
    · exact .inl (.inr hplaced)
    · exact .inr (h.mem_top_of_call hscoped hplaced)
  · exact hscoped.symm.imp_left fun hentry => .inr (h.placed_of_mem_entries hentry)

end Program

/-! ## §2. The frame of a function. -/

/-- **A function stays translated** if its declaration, its code and its values stay, and
dictionaries agree on the functions that it can name. -/
theorem Dictionary.Covers.mono {T T' : Dictionary} {p' : Program} (h : T.Covers P p d)
    (hnest : P.Nest root) (hd : P.FunctionOf root d) (hdom : T'.dom = T.dom)
    (hknows : T'.knows = T.knows) (hseen : T'.seen d = T.seen d) (hsame : ∀ {x}, P.FunctionOf root x
      ∨ x ∈ P.top → T'.image x = T.image x ∧ T'.taken x = T.taken x)
    (hdecls : p.decls.Keeps p'.decls)
    (hexprs : ∀ {e node}, CodeOf P d e ∨ P.exprs.size ≤ e.index → p.exprs.get? e = some node →
      p'.exprs.get? e = some node) (howns : ∀ {v}, p.Owns (T.image d) v → p'.Owns (T.image d) v) :
      T'.Covers P p' d := by
  obtain ⟨himage, htaken⟩ := hsame (.inl hd)
  refine ⟨?_, fun {e} he => ?_, fun {v} hv => ?_, fun {u v} hu hv heq => ?_⟩
  · obtain ⟨f, f', hf, hf', hto⟩ := h.function
    refine ⟨f, f', hf, ?_, hto.parent, hto.body, ?_, ?_, ?_, ?_, ?_⟩
    · rw [himage]
      exact hdecls _ _ hf'
    · rw [htaken, hseen]
      exact hto.params
    · rw [hseen]
      exact hto.receiver
    · rw [htaken]
      exact hto.bodiless
    · rw [htaken, hknows]
      exact hto.knows
    · rw [htaken]
      exact hto.apart
  · obtain ⟨node, node', hnode, hnode', hto⟩ := h.nodes he
    refine ⟨node, node', hnode, hexprs (.inl he) hnode', ?_⟩
    cases hto with
    | lit => exact .lit
    | get hv =>
      rw [← hseen]
      exact .get (hknows ▸ hv)
    | set hv hnot =>
      rw [← hseen]
      exact .set (hknows ▸ hv) (htaken ▸ hnot)
    | var hv hnot =>
      rw [← hseen]
      exact .var (hknows ▸ hv) (htaken ▸ hnot)
    | decl => exact .decl
    | @call a f caps hcallee hf hparent hlength hcaps hkeep =>
      obtain ⟨himage', htaken'⟩ := hsame (hnest.callee_cases hd he hnode (.inl ⟨a, rfl, rfl⟩))
      rw [← himage']
      refine .call (hdom ▸ hcallee) hf hparent hlength ?_ ?_
      · rw [htaken']
        refine hcaps.imp fun u x hx => ⟨hx.1, ?_⟩
        rw [hseen]
        exact hexprs (.inr hx.1) hx.2
      · rw [htaken', hknows]
        exact hkeep
    | @ret target value htarget =>
      rw [← (hsame (hnest.callee_cases hd he hnode (.inr ⟨value, rfl⟩))).1]
      exact .ret (hdom ▸ htarget)
    | block => exact .block
    | branch => exact .branch
    | loop => exact .loop
    | binary => exact .binary
  · rw [hknows] at hv
    obtain ⟨o, ho, hwithin, hiff, hown⟩ := h.owner hv
    rw [himage, htaken, hseen]
    exact ⟨o, ho, hwithin, hiff, howns hown⟩
  · rw [hknows] at hu hv
    rw [hseen] at heq
    exact h.seen_inj hu hv heq

namespace Lifts

variable {P p q p' : Program} {site : Site} {r : Relocation} (h : Lifts P p site r q p')
include h

theorem decls_keep : p.decls.Keeps p'.decls :=
  fun _ _ hd => h.relocated.kept_of_old h.filling.same hd

/-- What does not stand below the root is not rewritten. -/
theorem expr_kept (he : ∀ ds, ¬ Occurs P site.root ds (.expr e))
    (hnode : p.exprs.get? e = some node) : p'.exprs.get? e = some node := by
  have hq : q.exprs.get? e = some node := by rwa [h.relocated.settled.exprs]
  rw [h.filling.sweep.kept ?_ (Arena.lt_size_of_get? hq), hq]
  rintro c ⟨⟨o, k⟩, hmem, hcode, -⟩
  obtain ⟨ds, howner⟩ := h.ready.owner hmem
  exact he ds ((h.intact.occurs_iff h.nest).1 (howner.occurs hcode))

/-- What is not placed below the root keeps its values. -/
theorem value_kept {value : Value} (hv : p.values.get? v = some value)
    (howner : ¬ P.Placed site.root value.owner) : p'.values.get? v = some value := by
  obtain ⟨owner, hvalue, hor⟩ := h.filling.sweep.values (h.relocated.settled.values _ _ hv)
  rw [h.retarget_eq howner, or_self] at hor
  rw [hvalue, hor]

theorem sizes :
    p.decls.size ≤ q.decls.size ∧ p'.decls.size = q.decls.size ∧ p.values.size ≤ p'.values.size
      ∧ p.exprs.size ≤ p'.exprs.size := by
  refine ⟨h.relocated.settled.decls.size_le, h.filling.sweep.declsSize, ?_, ?_⟩
  · rw [h.filling.sweep.valuesSize]
    exact h.relocated.settled.values.size_le
  · rw [← h.relocated.settled.exprs]
    exact h.filling.sweep.exprsSize

variable (hP : P.OfFunctions) (hroot : site.root ∈ P.top) {other : DeclId} (hother : other ∈ P.top)
  (hne : other ≠ site.root)
include hP hroot hother hne

/-- The code of another root is not rewritten, nor are nodes that were added. -/
theorem expr_kept_of_ne (he : (∃ ds, Occurs P other ds (.expr e)) ∨ P.exprs.size ≤ e.index)
    (hnode : p.exprs.get? e = some node) : p'.exprs.get? e = some node := by
  refine h.expr_kept (fun ds hocc => ?_) hnode
  rcases he with ⟨ds', hocc'⟩ | hle
  · exact hne (hP.root_unique hother hroot hocc' hocc rfl)
  · obtain ⟨label, hlabel⟩ := h.nest.shaped.exists_label hocc
    obtain ⟨node', hnode', -⟩ := Option.map_eq_some_iff.1 hlabel
    have := Arena.lt_size_of_get? hnode'
    omega

/-- Another root stays as it was. -/
theorem intact_of_ne (hi : P.Intact p other) : P.Intact p' other where
  decls := hi.decls.trans h.decls_keep
  exprs hocc hnode := h.expr_kept_of_ne hP hroot hother hne (.inl ⟨_, hocc⟩) (hi.exprs hocc hnode)
  values hv howner := h.value_kept (hi.values hv howner) fun hplaced =>
    hne (hP.functionOf_unique hother hroot howner (.inr hplaced))
  valueCount := hi.valueCount.trans h.sizes.2.2.1

end Lifts

/-! ## §3. While roots are lowered. -/

/-- Before any root is lowered. -/
def Program.identity (P : Program) : Dictionary where
  dom d := ∃ root ∈ P.top, P.FunctionOf root d
  image := id
  taken _ := []
  knows d v := ∃ root ∈ P.top, P.FunctionOf root d ∧ P.Sees root d v
  seen _ := id

open Classical in
/-- After one more root has been lowered. -/
noncomputable def Dictionary.after (T : Dictionary) (P : Program) (site : Site)
    (r : Relocation) : Dictionary :=
  { T with
    image := fun d => if P.FunctionOf site.root d then r.retarget d else T.image d
    taken := fun d => if P.FunctionOf site.root d then site.taken d else T.taken d
    seen := fun d => if P.FunctionOf site.root d then (site.reader r d).seen else T.seen d }

/-- The functions of the roots in `done` are translated, and those of the other roots are as they
were. -/
structure Translating (P : Program) (done : List DeclId) (T : Dictionary) (p : Program) : Prop where
  decls : P.decls.Keeps p.decls
  exprCount : P.exprs.size ≤ p.exprs.size
  top : ∀ d ∈ P.top, d ∈ p.top
  roots : ∀ root ∈ done, root ∈ P.top
  dom : ∀ {d}, T.dom d ↔ ∃ root ∈ P.top, P.FunctionOf root d
  knows : ∀ {d v}, T.knows d v ↔ ∃ root ∈ P.top, P.FunctionOf root d ∧ P.Sees root d v
  outer : ∀ {d}, d ∈ P.top → T.image d = d ∧ T.taken d = []
  todo : ∀ {root}, root ∈ P.top → root ∉ done → P.Intact p root ∧ T.seen root = id
  images : ∀ {root d}, root ∈ done → P.Placed root d →
    P.decls.size ≤ (T.image d).index ∧ (T.image d).index < p.decls.size
  inj : ∀ {root root' d d'}, root ∈ done → root' ∈ done → P.Placed root d → P.Placed root' d' →
    T.image d = T.image d' → d = d'
  covers : ∀ {root d}, root ∈ done → P.FunctionOf root d → T.Covers P p d

namespace Translating

variable {P p p' q : Program} {done : List DeclId} {T : Dictionary} {site : Site}
  {r : Relocation} {root : DeclId}

theorem start (P : Program) : Translating P [] P.identity P where
  decls := .refl _
  exprCount := le_rfl
  top _ := id
  roots _ h := absurd h List.not_mem_nil
  dom := .rfl
  knows := .rfl
  outer _ := ⟨rfl, rfl⟩
  todo _ _ := ⟨.refl _ _, rfl⟩
  images h := absurd h List.not_mem_nil
  inj h := absurd h List.not_mem_nil
  covers h := absurd h List.not_mem_nil

/-- **When all roots have come**, the program is translated. -/
theorem translation (h : Translating P done T p) (hP : P.OfFunctions)
    (hdone : ∀ root ∈ P.top, root ∈ done) : Translation T P p where
  covers hd := by
    obtain ⟨root, hroot, hd⟩ := h.dom.1 hd
    exact h.covers (hdone root hroot) hd
  image_inj {d target} hd htarget heq := by
    obtain ⟨root, hroot, hd⟩ := h.dom.1 hd
    obtain ⟨root', hroot', htarget⟩ := h.dom.1 htarget
    -- functions of the module stay where they are, and the images of the others are new
    have hlt : ∀ {x}, x ∈ P.top → x.index < P.decls.size := fun hx => by
      obtain ⟨f, hf, -⟩ := (hP.nests _ hx).outermost
      exact Arena.lt_size_of_get? hf
    rcases hd with rfl | hplaced
    · rw [(h.outer hroot).1] at heq
      rcases htarget with rfl | hplaced'
      · rwa [(h.outer hroot').1] at heq
      · have := (h.images (hdone _ hroot') hplaced').1
        have := hlt hroot
        rw [heq] at *
        omega
    · rcases htarget with rfl | hplaced'
      · rw [(h.outer hroot').1] at heq
        have := (h.images (hdone _ hroot) hplaced).1
        have := hlt hroot'
        rw [← heq] at *
        omega
      · exact h.inj (hdone _ hroot') (hdone _ hroot) hplaced' hplaced heq

theorem knows_iff (h : Translating P done T p) (hP : P.OfFunctions) (hroot : root ∈ P.top)
    (hd : P.FunctionOf root d) : T.knows d v ↔ P.Sees root d v := by
  rw [h.knows]
  constructor
  · rintro ⟨root', hroot', hd', hsees⟩
    obtain rfl := hP.functionOf_unique hroot hroot' hd hd'
    exact hsees
  · exact fun hsees => ⟨root, hroot, hd, hsees⟩

/-- Listing more functions changes nothing else. -/
theorem relist (h : Translating P done T p) (hP : P.OfFunctions) (hds : ∀ d ∈ p.top, d ∈ ds) :
    Translating P done T { p with top := ds } where
  decls := h.decls
  exprCount := h.exprCount
  top d hd := hds d (h.top d hd)
  roots := h.roots
  dom := h.dom
  knows := h.knows
  outer := h.outer
  todo hroot hnew := by
    obtain ⟨hi, hseen⟩ := h.todo hroot hnew
    exact ⟨⟨hi.decls, hi.exprs, hi.values, hi.valueCount⟩, hseen⟩
  images := h.images
  inj := h.inj
  covers {root d} hroot hd :=
    (h.covers hroot hd).mono (hP.nests root (h.roots root hroot)) hd rfl rfl rfl
    (fun _ => ⟨rfl, rfl⟩) (.refl _) (fun _ => id) id

/-- A root without local functions stays as it is. -/
theorem bare (h : Translating P done T p) (hP : P.OfFunctions) (hroot : root ∈ P.top)
    (hnew : root ∉ done) (hbare : ∀ d, ¬ P.Placed root d) : Translating P (done ++ [root]) T p where
  decls := h.decls
  exprCount := h.exprCount
  top := h.top
  roots x hx := by
    rcases List.mem_append.1 hx with hx | hx
    · exact h.roots x hx
    · rwa [List.mem_singleton.1 hx]
  dom := h.dom
  knows := h.knows
  outer := h.outer
  todo hx hnot := h.todo hx fun hmem => hnot (List.mem_append_left _ hmem)
  images {x d} hx hd := by
    rcases List.mem_append.1 hx with hx | hx
    · exact h.images hx hd
    · rw [List.mem_singleton.1 hx] at hd
      exact absurd hd (hbare d)
  inj {x x' d d'} hx hx' hd hd' := by
    rcases List.mem_append.1 hx with hx | hx
    · rcases List.mem_append.1 hx' with hx' | hx'
      · exact h.inj hx hx' hd hd'
      · rw [List.mem_singleton.1 hx'] at hd'
        exact absurd hd' (hbare d')
    · rw [List.mem_singleton.1 hx] at hd
      exact absurd hd (hbare d)
  covers {x d} hx hd := by
    rcases List.mem_append.1 hx with hx | hx
    · exact h.covers hx hd
    · rw [List.mem_singleton.1 hx] at hd
      obtain rfl := hd.resolve_right (hbare d)
      obtain ⟨hi, hseen⟩ := h.todo hroot hnew
      exact (hP.nests d hroot).covers hi hbare hroot hP.parent_eq
        (fun hx => h.dom.2 ⟨_, hx, .inl rfl⟩)
        (h.knows_iff hP hroot (.inl rfl)) hseen h.outer

section

variable (h : Translating P done T p) (hP : P.OfFunctions) (hlifts : Lifts P p site r q p')
  (hroot : site.root ∈ P.top)
include h hlifts hroot

/-- The dictionary says what lowering the root has done. -/
theorem follows (hP : P.OfFunctions) : (T.after P site r).Follows P site r where
  dom := h.dom
  knows hd := h.knows_iff hP hroot hd
  image hd := if_pos hd
  taken hd := if_pos hd
  seen hd := congrFun (if_pos hd) _
  outer {d} hd := by
    by_cases hfunction : P.FunctionOf site.root d
    · obtain rfl := hfunction.resolve_right (hlifts.nest.not_placed_of_mem_top hd)
      refine ⟨(if_pos hfunction).trans (hlifts.retarget_eq hlifts.not_placed_root), ?_⟩
      exact (if_pos hfunction).trans hlifts.taken_root
    · exact ⟨(if_neg hfunction).trans (h.outer hd).1, (if_neg hfunction).trans (h.outer hd).2⟩

omit hroot in
/-- What becomes of the functions of another root is not placed below this one. -/
theorem not_placed_image (hother : other ∈ done) (hd : P.FunctionOf other d) :
    ¬ P.Placed site.root (T.image d) := by
  intro hplaced
  rcases hd with rfl | hd
  · rw [(h.outer (h.roots _ hother)).1] at hplaced
    exact hlifts.nest.not_placed_of_mem_top (h.roots _ hother) hplaced
  · obtain ⟨f, hf, -⟩ := hlifts.nest.exists_function (.inr hplaced)
    have := Arena.lt_size_of_get? hf
    have := (h.images hother hd).1
    omega

omit h hroot in
/-- The image of a function below the root is its replacement, which is new. -/
theorem image_new (hd : P.Placed site.root d) : ∃ new, r.get? d = some new
    ∧ (T.after P site r).image d = new ∧ p.decls.size ≤ new.index ∧ new.index < p'.decls.size := by
  obtain ⟨new, hnew⟩ := Option.isSome_iff_exists.1 (hlifts.isSome_iff.2 hd)
  obtain ⟨-, hle, hlt⟩ := hlifts.relocated.settled.moved hnew
  refine ⟨new, hnew, ?_, hle, hlt.trans_eq hlifts.sizes.2.1.symm⟩
  have himage : (T.after P site r).image d = r.retarget d := if_pos (.inr hd)
  rw [himage, Relocation.retarget, hnew]
  rfl

include hP

/-- What is said of the functions of other roots stays. -/
theorem after_of_ne (hother : other ∈ P.top) (hne : other ≠ site.root)
    (hx : P.FunctionOf other x ∨ x ∈ P.top) :
    (T.after P site r).image x = T.image x ∧ (T.after P site r).taken x = T.taken x := by
  rcases hx with hx | hx
  · have hnot : ¬ P.FunctionOf site.root x :=
      fun hx' => hne (hP.functionOf_unique hother hroot hx hx')
    exact ⟨if_neg hnot, if_neg hnot⟩
  · obtain ⟨himage, htaken⟩ := (h.follows hlifts hroot hP).outer hx
    obtain ⟨himage', htaken'⟩ := h.outer hx
    exact ⟨himage.trans himage'.symm, htaken.trans htaken'.symm⟩

/-- **One root more** is translated. -/
theorem step (hnew : site.root ∉ done) (hkeep : P.ArgumentsKeep) :
    Translating P (done ++ [site.root]) (T.after P site r) p' := by
  have hsize : p.decls.size ≤ p'.decls.size := hlifts.decls_keep.size_le
  -- the images of the functions that have come are older than those that come now
  have hold : ∀ {x d}, x ∈ done → P.Placed x d → (T.after P site r).image d = T.image d
      ∧ P.decls.size ≤ (T.image d).index ∧ (T.image d).index < p.decls.size := by
    intro x d hx hd
    exact ⟨(h.after_of_ne hP hlifts hroot (h.roots x hx) (fun heq => hnew (heq ▸ hx))
      (.inl (.inr hd))).1, h.images hx hd⟩
  refine ⟨h.decls.trans hlifts.decls_keep, h.exprCount.trans hlifts.sizes.2.2.2, ?_, ?_, h.dom,
    h.knows, (h.follows hlifts hroot hP).outer, ?_, ?_, ?_, ?_⟩
  · intro d hd
    rw [hlifts.filling.sweep.top, hlifts.relocated.settled.top]
    exact h.top d hd
  · intro x hx
    rcases List.mem_append.1 hx with hx | hx
    · exact h.roots x hx
    · rwa [List.mem_singleton.1 hx]
  · intro x hx hnot
    rw [List.mem_append, not_or, List.mem_singleton] at hnot
    obtain ⟨hi, hseen⟩ := h.todo hx hnot.1
    refine ⟨hlifts.intact_of_ne hP hroot hx hnot.2 hi, ?_⟩
    rw [← hseen]
    exact if_neg fun hfunction => hnot.2 (hP.functionOf_unique hx hroot (.inl rfl) hfunction)
  · intro x d hx hd
    rcases List.mem_append.1 hx with hx | hx
    · rw [(hold hx hd).1]
      exact ⟨(hold hx hd).2.1, (hold hx hd).2.2.trans_le hsize⟩
    · rw [List.mem_singleton.1 hx] at hd
      obtain ⟨new, -, himage, hle, hlt⟩ := image_new hlifts (T := T) hd
      rw [himage]
      exact ⟨h.decls.size_le.trans hle, hlt⟩
  · intro x x' d d' hx hx' hd hd' heq
    rcases List.mem_append.1 hx with hx | hx
    · rcases List.mem_append.1 hx' with hx' | hx'
      · rw [(hold hx hd).1, (hold hx' hd').1] at heq
        exact h.inj hx hx' hd hd' heq
      · rw [List.mem_singleton.1 hx'] at hd'
        obtain ⟨new, -, himage, hle, -⟩ := image_new hlifts (T := T) hd'
        have := (hold hx hd).2.2
        rw [(hold hx hd).1, himage] at heq
        rw [heq] at this
        omega
    · rw [List.mem_singleton.1 hx] at hd
      obtain ⟨new, hnew, himage, hle, -⟩ := image_new hlifts (T := T) hd
      rcases List.mem_append.1 hx' with hx' | hx'
      · have := (hold hx' hd').2.2
        rw [(hold hx' hd').1, himage] at heq
        rw [← heq] at this
        omega
      · rw [List.mem_singleton.1 hx'] at hd'
        obtain ⟨new', hnew', himage', -⟩ := image_new hlifts (T := T) hd'
        rw [himage, himage'] at heq
        exact hlifts.relocated.settled.inj (heq ▸ hnew) hnew'
  · intro x d hx hd
    rcases List.mem_append.1 hx with hx | hx
    · have hne : x ≠ site.root := fun heq => hnew (heq ▸ hx)
      have htop := h.roots x hx
      obtain ⟨ds, howner, -⟩ := (hP.nests x htop).exists_scopes hd
      refine (h.covers hx hd).mono (hP.nests x htop) hd rfl rfl ?_
        (h.after_of_ne hP hlifts hroot htop hne)
        hlifts.decls_keep (fun he => hlifts.expr_kept_of_ne hP hroot htop hne
        (he.imp_left fun he => ⟨ds, howner.occurs he⟩)) ?_
      · exact if_neg fun hfunction => hne (hP.functionOf_unique htop hroot hd hfunction)
      · rintro v ⟨value, hvalue, howner⟩
        refine ⟨value, hlifts.value_kept hvalue ?_, howner⟩
        rw [howner]
        exact h.not_placed_image hlifts hx hd
    · rw [List.mem_singleton.1 hx] at hd
      obtain ⟨ds, howner, -⟩ := hlifts.nest.exists_scopes hd
      refine hlifts.covers (h.follows hlifts hroot hP) hd h.exprCount hroot hP.parent_eq ?_
      exact fun he hnode u hu x hx => hkeep hroot (howner.occurs he) hnode hu hx

end

end Translating

/-! ## §4. A whole run. -/

namespace Program

/-- Functions can be lifted if none of them assigns what it captured. -/
theorem Intact.assignsCaptured (hi : P.Intact p root) (h : P.Nest root) (hclosed : p.Closed)
    (hchains : p.ChainsEnd) (hbad : p.Unliftable root) : P.AssignsCaptured root := by
  have hclass : ∀ {k c}, p.Placed root k → p.decls.get? k ≠ some (.cls c) := by
    intro k c hplaced hk
    obtain ⟨f, hf, -⟩ := h.exists_function (.inr ((hi.placed_iff h).1 hplaced))
    cases hk.symm.trans (hi.decls _ _ hf)
  cases hbad with
  | nested hm _ =>
    obtain ⟨ds, c, hocc, hk, -⟩ := hm
    have hplaced := (hi.placed_iff h).2 (h.placed_of_entry ((hi.occurs_iff h).1 hocc) rfl)
    exact absurd hk (hclass hplaced)
  | unconstructed hplaced hk _ => exact absurd hk (hclass hplaced)
  | literal hocc he _ =>
    have hocc := (hi.occurs_iff h).1 hocc
    exact (h.nodeScoped hocc ((hi.expr_iff h hocc).1 he)).elim
  | write hthrough he hnode hcaptured =>
    cases hthrough with
    | function hplaced _ =>
      have hplaced := (hi.placed_iff h).1 hplaced
      have he := (hi.codeOf_iff h (.inr hplaced)).1 he
      obtain ⟨ds, howner, -⟩ := h.exists_scopes (.inr hplaced)
      exact ⟨_, _, _, _, hplaced, he, (hi.expr_iff h (howner.occurs he)).1 hnode,
        (hi.captured_iff h hclosed hchains).1 hcaptured⟩
    | constructor hplaced hk => exact absurd hk (hclass hplaced)
    | member hplaced hk => exact absurd hk (hclass hplaced)

namespace OfFunctions

variable {P : Program} (h : P.OfFunctions)
include h

theorem exists_function (hd : d ∈ P.top) :
    ∃ f, P.decls.get? d = some (.function f) ∧ f.accessorOf = none := by
  obtain ⟨f, hf, -, haccessor, -⟩ := (h.nests d hd).outermost
  exact ⟨f, hf, haccessor⟩

/-- The module is the only container. -/
theorem containers_eq : P.containers = .ok [none] := by
  have hclasses : ∀ d ∈ P.top, ∃ ks, P.classesUpTo (P.decls.size + 1) d = .ok ks ∧ ks = [] := by
    intro d hd
    obtain ⟨f, hf, -⟩ := h.exists_function hd
    exact ⟨[], by simp [classesUpTo, decl_eq_ok.2 hf]; rfl, rfl⟩
  obtain ⟨kss, hkss, hall⟩ := Except.mapM_eq_ok hclasses
  have hnil : kss.flatten = [] := by
    refine List.flatten_eq_nil_iff.2 fun ks hks => ?_
    obtain ⟨_, -, rfl⟩ := forall₂_left hall hks
    rfl
  rw [containers, hkss, Except.ok_bind, hnil]
  rfl

/-- Its roots are the functions that it lists. -/
theorem roots_eq : P.roots none = .ok P.top := by
  have hroots : ∀ d ∈ P.top, ∃ rs, P.rootsOf d = .ok rs ∧ rs = [d] := by
    intro d hd
    obtain ⟨f, hf, -⟩ := h.exists_function hd
    exact ⟨[d], by simp [rootsOf, decl_eq_ok.2 hf]; rfl, rfl⟩
  obtain ⟨rss, hrss, hall⟩ := Except.mapM_eq_ok hroots
  obtain rfl := eq_map_of_forall₂ hall fun _ _ _ heq => heq
  have hchildren : P.children none = .ok P.top := rfl
  have hflat : (P.top.map fun d => [d]).flatten = P.top := by
    rw [← List.flatMap_def, List.flatMap_singleton']
  rw [roots, hchildren, Except.ok_bind, hrss, Except.ok_bind, hflat]
  rfl

end OfFunctions

end Program

theorem exists_insertAfter {anchor : DeclId} (new : List DeclId)
    {as : List DeclId} (h : anchor ∈ as) : ∃ bs, insertAfter anchor new as = some bs := by
  induction as with
  | nil => cases h
  | cons a as ih =>
    unfold insertAfter
    split
    · exact ⟨_, rfl⟩
    · rename_i hne
      obtain ⟨bs, hbs⟩ := ih ((List.mem_cons.1 h).resolve_left fun heq => hne heq.symm)
      exact ⟨a :: bs, by rw [hbs]; rfl⟩

namespace Lowering

variable {P : Program} {settings : Settings} {root : DeclId} {siblings : List DeclId} {w : Work}

/-- A function of the module gets its siblings listed. -/
theorem splice_module (hf : w.program.decls.get? root = some (.function f))
    (haccessor : f.accessorOf = none) (hroot : root ∈ w.program.top) {err : Fault → Prop} :
    (splice none root siblings).Ends w (fun _ w' => ∃ ds, (∀ d ∈ w.program.top, d ∈ ds)
      ∧ w' = { w with program := { w.program with top := ds } }) err := by
  obtain ⟨ds, hds⟩ := exists_insertAfter siblings hroot
  have hanchor : anchor root w = .ok root w := by
    unfold anchor
    rw [Step.bind_eq (Step.decl_eq hf)]
    obtain ⟨_, _, _, _, _, _, _, _, _, _, _, accessorOf, _⟩ := f
    cases haccessor
    rfl
  have hlists : w.program.listsChildren none = .ok true := rfl
  have hchildren : w.program.children none = .ok w.program.top := rfl
  have hset : w.program.setChildren ds none = .ok { w.program with top := ds } := rfl
  refine .step hanchor (.step Step.program_eq (.step (Step.liftExcept_eq hlists) ?_))
  refine .step (Step.liftExcept_eq hchildren) ?_
  rw [hds]
  refine .step (Step.liftExcept_eq hset) ?_
  exact ⟨ds, fun d hd => (mem_insertAfter hds d).2 (.inl hd), rfl⟩

/-- **A root is lowered and listed**: one root more is translated. -/
theorem lowerListed_translates (hP : P.OfFunctions) (hkeep : P.ArgumentsKeep) {done : List DeclId}
    (hw : w.program.Sound) (h : ∃ T, Translating P done T w.program) (hroot : root ∈ P.top)
    (hnew : root ∉ done) (lifted : Lifted) : (lowerListed settings none lifted root).Ends w
      (fun _ w' => w'.program.Sound ∧ ∃ T, Translating P (done ++ [root]) T w'.program)
      fun _ => P.AssignsCaptured root := by
  obtain ⟨T, h⟩ := h
  obtain ⟨hi, -⟩ := h.todo hroot hnew
  have hnest := hP.nests root hroot
  obtain ⟨f, hf₀, haccessor⟩ := hP.exists_function hroot
  have hf := h.decls _ _ hf₀
  have hin : w.program.RootIn none root :=
    ⟨_, root, [root], rfl, h.top root hroot, by simp [rootsOf, decl_eq_ok.2 hf]; rfl,
      List.mem_singleton_self _⟩
  have hends : Step.Ends (lowerRoot settings root) ⟨w.program, w.events⟩ _ _ :=
    lowerRoot_ends (hi.wellShaped hnest hw.closed hw.chains) settings
  refine .bind
    (((hends.and (lowerRoot_sound hw (hin.lt hw.closed))).weaken fun f _ hf => ?_).mono ?_)
  · exact hi.assignsCaptured hnest hw.closed hw.chains hf.1.2
  rintro result w₁ ⟨⟨-, hresult⟩, hsound⟩
  cases result with
  | none =>
    obtain ⟨rfl, hbare⟩ := hresult
    refine .pure ⟨hw, T, h.bare hP hroot hnew fun d hd => hbare d ((hi.placed_iff hnest).2 hd)⟩
  | some siblings =>
    obtain ⟨site, dest, r, q, rfl, hsite, hrelocated, hfilling, -⟩ := hresult
    obtain ⟨hnone, -⟩ | ⟨_, heq, hoisted⟩ := hsound
    · cases hnone
    cases heq
    obtain rfl : dest = none := by
      obtain ⟨content, hcontent, rfl⟩ := hsite.dest
      cases hcontent.symm.trans hf
      exact hP.parent_eq hroot hf₀
    have hlifts : Lifts P w.program site r q w₁.program := ⟨hnest, hi, hsite, hrelocated, hfilling⟩
    have hstep := h.step hP hlifts hroot hnew hkeep
    have hf₁ := hstep.decls _ _ hf₀
    refine .bind (((splice_module hf₁ haccessor (hstep.top _ hroot)).and_leaves
      (splice_leaves none site.root siblings w₁)).mono ?_)
    rintro _ _ ⟨⟨ds, hds, rfl⟩, hlisted, -⟩
    have hsound := hlisted.sound hoisted hin
    obtain ⟨doc, hdoc⟩ := declDoc_answers hsound.closed hsound.acyclic (Arena.lt_size_of_get? hf₁)
    refine .step (Step.reportStage_eq hf₁)
      (.step Step.program_eq (.step (Step.liftExcept_eq hdoc) ?_))
    exact .step Step.report_eq (.pure ⟨hsound, _, hstep.relist hP hds⟩)

/-- **A whole run** translates the program, unless something could not be lifted or the check finds
fault. -/
theorem lower_translates (settings : Settings) (hP : w.program.OfFunctions)
    (hkeep : w.program.ArgumentsKeep) :
    (lower settings).Ends w (fun _ w' => ∃ T, Translating w.program w.program.top T w'.program)
      fun _ => settings.validate = true
        ∨ ∃ root ∈ w.program.top, w.program.AssignsCaptured root := by
  refine .step Step.program_eq (.step (Step.liftExcept_eq hP.containers_eq) (.bind ?_))
  have hcontainer : (lowerContainer settings .empty none).Ends w
      (fun _ w' => ∃ T, Translating w.program w.program.top T w'.program)
      fun _ => settings.validate = true
      ∨ ∃ root ∈ w.program.top, w.program.AssignsCaptured root := by
    refine .step Step.program_eq (.step (Step.liftExcept_eq (a := false) rfl) ?_)
    refine .step Step.program_eq (.step (Step.liftExcept_eq hP.roots_eq) ?_)
    refine (Step.Yields.foldlM
      (fun done _ w' => w'.program.Sound ∧ ∃ T, Translating w.program done T w'.program) ?_
      ⟨hP.sound, _, .start _⟩).mono fun _ _ h => h.2
    rintro done root rest lifted w₁ hsplit ⟨hw₁, h⟩
    have hroot : root ∈ w.program.top := hsplit ▸ List.mem_append_right _ List.mem_cons_self
    have hnew : root ∉ done := by
      have hnodup := hP.listed
      rw [hsplit, List.nodup_append] at hnodup
      exact fun hmem => hnodup.2.2 root hmem root List.mem_cons_self rfl
    exact (lowerListed_translates hP hkeep hw₁ h hroot hnew lifted).weaken fun _ _ hbad =>
      .inr ⟨root, hroot, hbad⟩
  rw [List.foldlM_cons]
  refine .bind (hcontainer.mono fun lifted w₁ h => .pure ?_)
  split
  · rename_i hvalidate
    exact .step Step.program_eq (.bind (.ask (fun _ _ => .pure h) fun _ _ => .inl hvalidate))
  · exact .pure h

end Lowering

open Lowering

/-- **Lifting keeps the meaning of programs of functions.**  Let no argument of a call assign a
value that the callee captures.  If lowering answers, then whatever literals and operators mean,
every function of the module comes to the same as before when it is called from outside, with any
fuel, receiver and arguments.  And if the result is not checked, lowering answers unless a function
assigns what it captured. -/
theorem lower_run_eq (settings : Settings) (w : Work) (hP : w.program.OfFunctions)
    (hkeep : w.program.ArgumentsKeep) :
    (∀ {table w'}, lower settings w = .ok table w' →
      ∀ d ∈ w.program.top, ∀ {V : Type} (m : Meaning V) (fuel : Nat)
        (receiver : Option V) (args : List V),
        w'.program.run m fuel d receiver args = w.program.run m fuel d receiver args)
      ∧ (settings.validate = false → (∀ root ∈ w.program.top, ¬ w.program.AssignsCaptured root) →
        ∃ table w', lower settings w = .ok table w') := by
  have hends := lower_translates settings hP hkeep
  unfold Step.Ends Step.Yields at hends
  constructor
  · intro table w' hlower d hd V m fuel receiver args
    rw [hlower] at hends
    obtain ⟨T, h⟩ := hends
    exact (h.translation hP fun _ => id).run_eq m (h.dom.2 ⟨d, hd, .inl rfl⟩)
      (h.outer hd).1 (h.outer hd).2
      (fun f => hP.parent_eq hd) fuel receiver args
  · intro hvalidate hliftable
    cases hlower : lower settings w with
    | ok table w' => exact ⟨table, w', rfl⟩
    | error f w' =>
      rw [hlower] at hends
      obtain htrue | ⟨root, hroot, hbad⟩ := hends
      · cases hvalidate.symm.trans htrue
      · exact absurd hbad (hliftable root hroot)

/-! ## §5. Arguments that assign, and returns from afar. -/

/-- A local function reads a variable of the function around it, which calls it with an argument.

    fun f(): Int { var x = 1; fun g(y: Int): Int { return@g x }; return@f g(argument) } -/
def Program.handing (argument : Expr) : Program where
  decls := ⟨#[.function { name := .ident "f", parent := none, visibility := .everywhere,
                          ret := .int, body := some ⟨9⟩ },
    .function { name := .ident "g", parent := some ⟨0⟩, visibility := .inBody, params := [⟨1⟩],
                ret := .int, body := some ⟨3⟩ }]⟩
  values := ⟨#[{ name := .ident "x", ty := .int, owner := ⟨0⟩, kind := .var true },
    { name := .ident "y", ty := .int, owner := ⟨1⟩, kind := .param 0 }]⟩
  exprs := ⟨#[.lit (.int 1), .var ⟨0⟩ (some ⟨0⟩), .get ⟨0⟩, .ret ⟨1⟩ ⟨2⟩, .decl ⟨1⟩, .lit (.int 5),
    argument, .access .call { callee := ⟨1⟩, args := [some ⟨6⟩] }, .ret ⟨0⟩ ⟨7⟩,
    .block [⟨1⟩, ⟨4⟩, ⟨8⟩]]⟩
  top := [⟨0⟩]

/-- The caller of a local function's callee leaves the local function.

    fun f(): Int { fun g(): Int { h() }; return@f g() }
    fun h(): Int { return@g 5 } -/
def Program.leavingAfar : Program where
  decls := ⟨#[.function { name := .ident "f", parent := none, visibility := .everywhere,
                          ret := .int, body := some ⟨4⟩ },
    .function { name := .ident "g", parent := some ⟨0⟩, visibility := .inBody, ret := .int,
                body := some ⟨0⟩ },
    .function { name := .ident "h", parent := none, visibility := .everywhere, ret := .int,
                body := some ⟨6⟩ }]⟩
  values := ⟨#[]⟩
  exprs := ⟨#[.access .call { callee := ⟨2⟩ }, .decl ⟨1⟩, .access .call { callee := ⟨1⟩ },
    .ret ⟨0⟩ ⟨2⟩, .block [⟨1⟩, ⟨3⟩], .lit (.int 5), .ret ⟨1⟩ ⟨5⟩]⟩
  top := [⟨0⟩, ⟨2⟩]

/-- Integers as they are, with zero for everything else. -/
def Meaning.ofInt : Meaning Int where
  unit := 0
  literal
    | .int n => n
    | _ => 0
  binary _ a b := a + b
  holds n := n ≠ 0

theorem Program.OfFunctions.handing {argument : Expr}
    (hcomplete : ∀ place ∈ (Program.handing argument).places,
      ((Program.handing argument).unfold .nested place).complete = true)
    (hnest : (Program.handing argument).Nest ⟨0⟩) : (Program.handing argument).OfFunctions where
  sound := ⟨hnest.shaped.closed, acyclic_of_complete hcomplete, hnest.shaped.chains⟩
  listed := List.nodup_singleton _
  nests _ hroot := List.mem_singleton.1 hroot ▸ hnest
  apart _ hroot _ hroot' hne :=
    absurd ((List.mem_singleton.1 hroot).trans (List.mem_singleton.1 hroot').symm) hne

/-- Arguments without parts that assign nothing keep what the callee captures. -/
theorem Program.ArgumentsKeep.of_plain (h : ∀ node ∈ P.exprs.entries.toList, ∀ a ∈ node.access?,
      ∀ x ∈ a.args.filterMap id, ∀ argument ∈ P.exprs.get? x, argument.operands = []
        ∧ argument.written? = none) :
    P.ArgumentsKeep := by
  rintro root ds e a u x - - he - hx ⟨y, node, hinside, hy, hwritten⟩
  have hmem := h _ (Arena.mem_entries_of_get? he) a rfl x (List.mem_filterMap.2 ⟨_, hx, rfl⟩)
  obtain rfl | ⟨z, ⟨argument, hargument, hz⟩, -⟩ := Relation.ReflTransGen.cases_head hinside
  · cases hwritten.symm.trans (hmem node hy).2
  · rw [(hmem argument hargument).1] at hz
    cases hz

/-- A run with a captured variable: lifting keeps what it comes to. -/
theorem lower_run_eq_handing :
    (Program.handing (.get ⟨0⟩)).OfFunctions ∧ (Program.handing (.get ⟨0⟩)).ArgumentsKeep
      ∧ ∃ table w, lower {} ⟨.handing (.get ⟨0⟩), []⟩ = .ok table w ∧ table.get? ⟨0⟩ = some [⟨2⟩]
        ∧ w.program.run .ofInt 9 ⟨0⟩ none [] = .value 1 := by
  have hfunctions : (Program.handing (.get ⟨0⟩)).OfFunctions :=
    .handing (by decide +kernel) (by decide +kernel)
  have hkeep : (Program.handing (.get ⟨0⟩)).ArgumentsKeep :=
    ArgumentsKeep.of_plain (by decide +kernel)
  have hlower : (Step.answer? (lower {}) ⟨.handing (.get ⟨0⟩), []⟩).map (·.get? ⟨0⟩)
      = some (some [⟨2⟩]) := by
    decide +kernel
  have hrun : (Program.handing (.get ⟨0⟩)).run .ofInt 9 ⟨0⟩ none [] = .value 1 := by decide +kernel
  obtain ⟨table, hanswer, htable⟩ := Option.map_eq_some_iff.1 hlower
  obtain ⟨w, hw⟩ := Step.answer?_eq_some.1 hanswer
  refine ⟨hfunctions, hkeep, table, w, hw, htable, ?_⟩
  rw [(lower_run_eq {} ⟨.handing (.get ⟨0⟩), []⟩ hfunctions hkeep).1 hw ⟨0⟩
    (List.mem_singleton_self _)]
  exact hrun

/-- **An argument that assigns what the callee captures comes too late**: the captured value is
handed over first.  And a return from afar misses a local function that was lifted, since only the
code of its own root is retargeted. -/
theorem lower_run_ne : (Program.handing (.set ⟨0⟩ ⟨5⟩)).OfFunctions
    ∧ (∃ table w, lower {} ⟨.handing (.set ⟨0⟩ ⟨5⟩), []⟩ = .ok table w
      ∧ (Program.handing (.set ⟨0⟩ ⟨5⟩)).run .ofInt 9 ⟨0⟩ none [] = .value 5
      ∧ w.program.run .ofInt 9 ⟨0⟩ none [] = .value 1)
    ∧ ∃ table w, lower { validate := false } ⟨.leavingAfar, []⟩ = .ok table w
    ∧ Program.leavingAfar.run .ofInt 9 ⟨0⟩ none [] = .value 5
      ∧ w.program.run .ofInt 9 ⟨0⟩ none [] = .stuck := by
  have hassigned : ((lower {}).after ⟨.handing (.set ⟨0⟩ ⟨5⟩), []⟩).program.run .ofInt 9
      ⟨0⟩ none [] = .value 1 := by
    decide +kernel
  have hmissed : ((lower { validate := false }).after ⟨.leavingAfar, []⟩).program.run .ofInt 9
      ⟨0⟩ none [] = .stuck := by decide +kernel
  have hlower : (Step.answer? (lower {}) ⟨.handing (.set ⟨0⟩ ⟨5⟩), []⟩).isSome
      = true := by decide +kernel
  have hlower' : (Step.answer? (lower { validate := false }) ⟨.leavingAfar, []⟩).isSome
      = true := by decide +kernel
  obtain ⟨table, hanswer⟩ := Option.isSome_iff_exists.1 hlower
  obtain ⟨w, hw⟩ := Step.answer?_eq_some.1 hanswer
  obtain ⟨table', hanswer'⟩ := Option.isSome_iff_exists.1 hlower'
  obtain ⟨w', hw'⟩ := Step.answer?_eq_some.1 hanswer'
  rw [Step.after_of_ok hw] at hassigned
  rw [Step.after_of_ok hw'] at hmissed
  exact ⟨.handing (by decide +kernel) (by decide +kernel),
    ⟨table, w, hw, by decide +kernel, hassigned⟩, table', w', hw', by decide +kernel, hmissed⟩

end LambdaLift
