/-
  LambdaLift.Proofs.Founded
  **ON A CLOSED PROGRAM SIGNATURES ARE BUILT, OR A REPORT SAYS WHY NOT.**

  Nothing is assumed of the shape of a program but that it is closed and
  its chains of parents end.  Building a signature may then be refused, and
  the refusal names a declaration; it never follows a handle that leads
  nowhere.  Whatever a relocation tells lifted code to read has an entry,
  and the receivers it is told to read from are new values.

  Main results:
    * `Ledger.lifting` — where replacements of a closed program stand;
    * `Lift.relocation_founded` — what building all signatures of a root
      leaves behind.
-/
import Mathlib
import LambdaLift.Proofs.Raised

namespace LambdaLift

variable {d : DeclId} {f : Fault} {r : Relocation}

theorem Relocation.reports_of_lifted (h : r.lifted d = .error f) : f.Reports := by
  unfold lifted at h
  split at h <;> cases h
  rfl

theorem Relocation.reports_of_context (h : r.context d = .error f) : f.Reports := by
  unfold context at h
  split at h <;> cases h
  rfl

/-- What carries a captured value is there, and a receiver is a new value. -/
def Carrier.Leads (p₀ p : Program) : Carrier → Prop
  | .param x => x.index < p.values.size
  | .field f this =>
    f.index < p.decls.size ∧ p₀.values.size ≤ this.index ∧ this.index < p.values.size

/-- When the declarations below a root have got their replacements: what is new stands where it
should, and what is recorded leads somewhere. -/
structure Founded (p₀ : Program) (dest : Option DeclId) (n : Nat) (r : Relocation)
    (p : Program) : Prop where
  lifting : Lifting p₀ dest (fun _ => True) n r p
  /-- what is new replaces something or has no parts -/
  origins : ∀ {x content}, p₀.decls.size ≤ x.index → p.decls.get? x = some content →
    (∃ d, r.get? d = some x) ∨ content.parts = []
  sources : ∀ {x v}, r.carried.get? x = some v → v.index < p₀.values.size
  carriers : ∀ {d c v k}, r.contexts.get? d = some c → c.carrier? v = some k →
    v.index < p₀.values.size ∧ k.Leads p₀ p

namespace Ledger

variable {p₀ p : Program} {site : Site} {r : Relocation} (h : Ledger p₀ site none r p)

include h

/-- A lifted class stands in the destination. -/
theorem parent_of_cls {x : DeclId} {c : ClassDecl} (hx : r.get? d = some x)
    (hc : p₀.decls.get? d = some (.cls c)) :
    ∃ content, p.decls.get? x = some content ∧ content.parent = site.destination p₀ := by
  obtain ⟨content, hcontent, hrenews⟩ := h.renews hx hc
  refine ⟨content, hcontent, ?_⟩
  rw [← Declaration.parent_erase]
  generalize content.erase = content' at hrenews
  cases hrenews with
  | cls => rfl

variable (hsound : site.Sound p₀)

include hsound

/-- **Where replacements of a closed program stand**, and that what is recorded leads somewhere. -/
theorem lifting {done : DeclId → Prop} (hdone : ∀ {d}, (r.get? d).isSome → done d)
    (hforth : ∀ {v x}, r.values.forth? v = some x → ∃ value, p₀.values.get? v = some value
      ∧ done value.owner) :
    Lifting p₀ (site.destination p₀) done p.decls.size r p where
  exprs := h.grown.exprs
  top := h.grown.top
  decls := h.grown.decls
  values := h.grown.values
  closed := h.closedAt hsound
  parents {x content} hlow hx := by
    have hclass : ∀ {k y}, k ∈ site.locals.classes.keys → r.get? k = some y →
        content.parent = some y →
        content.parent = site.destination p₀ ∨ ∃ y outer, content.parent = some y
        ∧ p.decls.get? y = some outer
          ∧ outer.parent = site.destination p₀ := by
      intro k y hk hy hparent
      obtain ⟨-, -, c, hc⟩ := (hsound.sorted.classes k).1 hk
      obtain ⟨outer, houter, hdest⟩ := h.parent_of_cls hy hc
      exact .inr ⟨y, outer, hparent, houter, hdest⟩
    obtain ⟨d, hd⟩ | ⟨d, hlisted, new, v, hd, value, -, hfield⟩ := h.added hlow hx
    · rcases (h.raised hsound.sorted).homes hd hx with ⟨-, hdest⟩ | ⟨k, y, -, hk, hy, hparent⟩
      · exact .inl hdest
      · exact hclass hk hy hparent
    · cases hx.symm.trans hfield
      exact hclass hlisted hd rfl
  moved hd := ⟨hdone (by rw [hd]; rfl), h.images hd⟩
  inj := h.injective
  forth hv := ⟨hforth hv, h.inverse.1 hv⟩
  back hx := ⟨h.inverse.2 hx, h.counterparts (h.inverse.2 hx)⟩
  carried hx := ⟨(h.carried hx).1, (h.carried hx).2.1⟩
  contexts hc := hdone (h.contexts hc).1
  fields hc f hf := by
    obtain ⟨-, hlow, -⟩ := (h.raised hsound.sorted).fields hc f hf
    exact ⟨hlow, h.fields hc f hf⟩

/-- What a context says about a captured value leads somewhere. -/
theorem leads {context : Context} {v : ValueId} {k : Carrier}
    (hcontext : r.contexts.get? d = some context) (hk : context.carrier? v = some k) :
    v.index < p₀.values.size ∧ k.Leads p₀ p := by
  obtain ⟨_, closure, new, before, params, hclosure, -, caps, _, -, hcaps, -, hparams⟩ | ⟨c,
      closure, new, this, fields, -,
    hclosure, hnew, hforth, hfields, -, rfl⟩ := h.of_context hsound.sorted hcontext
  · cases hparams.symm.trans hcontext
    obtain ⟨x, hx, rfl⟩ := Option.map_eq_some_iff.1 hk
    have hmem := OrderedMap.get?_eq_some_iff.1 hx
    rw [OrderedMap.entries_ofList_zip closure.nodup (by simpa using hcaps.length_eq)] at hmem
    obtain ⟨_, -, -, value, -, hvalue⟩ := forall₂_left hcaps (List.of_mem_zip hmem).2
    exact ⟨hsound.closures hclosure v (List.of_mem_zip hmem).1, Arena.lt_size_of_get? hvalue⟩
  · obtain ⟨f, hf, rfl⟩ := Option.map_eq_some_iff.1 hk
    have hmem := OrderedMap.get?_eq_some_iff.1 hf
    rw [OrderedMap.entries_ofList_zip closure.nodup hfields.length_eq] at hmem
    obtain ⟨_, -, value, -, hfield⟩ := forall₂_left hfields (List.of_mem_zip hmem).2
    exact ⟨hsound.closures hclosure v (List.of_mem_zip hmem).1, Arena.lt_size_of_get? hfield,
      h.counterparts hforth⟩

theorem founded : Founded p₀ (site.destination p₀) p.decls.size r p where
  lifting := by
    refine h.lifting hsound (fun _ => trivial) fun hv => ?_
    obtain ⟨d, old, -, hold, hmem⟩ := h.origins hv
    have hlt := (hsound.names hold (.refl p₀)).values _ (Declaration.mem_namedValues_of_binds hmem)
    obtain ⟨value, hvalue⟩ := Arena.exists_get?_of_lt hlt
    exact ⟨value, hvalue, trivial⟩
  origins hlow hx := by
    refine (h.added hlow hx).imp_right ?_
    rintro ⟨_, -, _, _, -, _, -, hfield⟩
    cases hx.symm.trans hfield
    rfl
  sources hx := by
    obtain ⟨-, -, -, d, c, hc, hv⟩ := h.carried hx
    exact hsound.closures hc _ hv
  carriers hcontext hk := h.leads hsound hcontext hk

end Ledger

/-- **The signatures of everything lifted out of a root** are built, or a report says why not. -/
theorem Lift.relocation_founded {site : Site} {w : Work} (hsound : site.Sound w.program)
    (hcollects : w.program.Collects site.root) :
    (relocation site).Ends w (fun r w' => Founded w.program
      (site.destination w.program) w'.program.decls.size r w'.program)
      Fault.Reports :=
  ((relocation_yields hsound.sorted hcollects).mono fun _ _ h => h.1.founded hsound).weaken
    fun _ _ h => (h.2 hsound).1

end LambdaLift
