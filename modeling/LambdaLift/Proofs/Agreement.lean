/-
  LambdaLift.Proofs.Agreement
  **AN ANALYSIS SEES WHAT IS NESTED IN ITS ROOT.**

  Collecting and closure analysis walk over what is nested in a root.  On
  the way they ask about declarations and their chains of parents, and
  about the values that are used there.  If nothing dangles and nothing
  runs in circles they answer; and they answer alike in every program
  with the same declarations, the same expressions nested in the root and
  the same values used there.  The number of rounds that closure analysis
  may take grows with the program, but no round beyond the bound of the
  smaller program is ever needed.

  Main results:
    * `Program.visitBelow_alike` — two visits of one root;
    * `Program.locals_alike` — collecting answers alike, or reports alike;
    * `Program.closures_alike` — closure analysis answers, and alike.
-/
import Mathlib
import LambdaLift.Proofs.LeastClosures
import LambdaLift.Proofs.Renewal

namespace LambdaLift

variable {callee d : DeclId} {e : ExprId} {v : ValueId} {captured : Closure} {content : Declaration}
  {node : Expr} {scopes : List Scope}

/-! ## §1. Computations that answer alike. -/

/-- Two computations end alike: with one good answer, or with one fault of the expected kind. -/
inductive Alike {α : Type} (good : α → Prop) (bad : Fault → Prop) :
    Except Fault α → Except Fault α → Prop
  | ok {a : α} : good a → Alike good bad (.ok a) (.ok a)
  | error {f : Fault} : bad f → Alike good bad (.error f) (.error f)

namespace Alike

variable {α β : Type} {good : α → Prop} {bad : Fault → Prop} {x y : Except Fault α}

theorem eq (h : Alike good bad x y) : x = y := by
  cases h <;> rfl

theorem bind {good' : β → Prop} {f g : α → Except Fault β} (h : Alike good bad x y)
    (hnext : ∀ a, good a → Alike good' bad (f a) (g a)) : Alike good' bad (x >>= f) (y >>= g) := by
  cases h with
  | ok h => exact hnext _ h
  | error h => exact .error h

theorem foldlM {f g : α → β → Except Fault α} {bs : List β}
    (h : ∀ a, good a → ∀ b ∈ bs, Alike good bad (f a b) (g a b)) {a : α} (ha : good a) :
    Alike good bad (bs.foldlM f a) (bs.foldlM g a) := by
  induction bs generalizing a with
  | nil => exact .ok ha
  | cons b bs ih =>
    rw [List.foldlM_cons, List.foldlM_cons]
    exact (h a ha b List.mem_cons_self).bind fun a' ha' =>
      ih (fun a ha b hb => h a ha b (List.mem_cons_of_mem _ hb)) ha'

theorem mapM {f g : β → Except Fault α} {bs : List β} (h : ∀ b ∈ bs, Alike good bad (f b) (g b)) :
    Alike (fun as => ∀ a ∈ as, good a) bad (bs.mapM f) (bs.mapM g) := by
  induction bs with
  | nil => exact .ok (by simp)
  | cons b bs ih =>
    rw [List.mapM_cons, List.mapM_cons]
    refine (h b List.mem_cons_self).bind fun a ha => ?_
    exact (ih fun b' hb' => h b' (List.mem_cons_of_mem _ hb')).bind fun as has =>
      .ok (List.forall_mem_cons.2 ⟨ha, has⟩)

theorem of_eq_ok {a : α} (hx : x = .ok a) (hy : y = .ok a) (ha : good a) : Alike good bad x y := by
  rw [hx, hy]
  exact .ok ha

end Alike

/-! ## §2. Two programs below one root. -/

namespace Tree

mutual
/-- Nothing is missing in a tree, and all its labels are of a kind. -/
def All (P : Label → Prop) : Tree → Prop
  | .node label below => P label ∧ AllOf P below
  | _ => False
/-- Nothing is missing in trees, and all their labels are of a kind. -/
def AllOf (P : Label → Prop) : List Tree → Prop
  | [] => True
  | t :: ts => t.All P ∧ AllOf P ts
end

section

variable {σ : Type} {good : σ → Prop} {bad : Fault → Prop} {P : Label → Prop} {f g : Visitor σ}

mutual
/-- **Visitors that act alike on every label visit alike.** -/
theorem visit_alike
    (h : ∀ label, P label → ∀ below below', (∀ s, good s → Alike good bad (below s) (below' s)) →
      ∀ s, good s → Alike good bad (f label below s) (g label below' s)) :
    ∀ {t : Tree}, t.All P → ∀ s, good s → Alike good bad (t.visit f s) (t.visit g s)
  | .node _ _, ht, s, hs => h _ ht.1 _ _ (visitAll_alike h ht.2) s hs
theorem visitAll_alike
    (h : ∀ label, P label → ∀ below below', (∀ s, good s → Alike good bad (below s) (below' s)) →
      ∀ s, good s → Alike good bad (f label below s) (g label below' s)) :
    ∀ {ts : List Tree}, AllOf P ts → ∀ s, good s →
      Alike good bad (visitAll f ts s) (visitAll g ts s)
  | [], _, _, hs => .ok hs
  | _ :: _, hts, s, hs => (visit_alike h hts.1 s hs).bind (visitAll_alike h hts.2)
end

end

variable {p q : Program} {reach : Reach}

mutual
/-- A tree has labels of a kind if all that is nested at its place is of that kind. -/
theorem Reads.all {P : Label → Prop} : ∀ {t : Tree} {start : Place}, t.Reads p reach start →
    (∀ {place label}, Relation.ReflTransGen (p.Encloses reach) start place →
      p.label? place = some label → P label) →
    t.All P
  | .node _ _, _, ht, h => ⟨h .refl ht.1, ReadsAll.all ht.2 fun hinner hplace hlabel =>
      h (.head ⟨_, ht.1, hinner⟩ hplace) hlabel⟩
theorem ReadsAll.all {P : Label → Prop} :
    ∀ {ts : List Tree} {starts : List Place}, ReadsAll p reach ts starts →
    (∀ {start place label}, start ∈ starts → Relation.ReflTransGen (p.Encloses reach) start place →
      p.label? place = some label → P label) → AllOf P ts
  | [], [], _, _ => trivial
  | _ :: _, _ :: _, hts, h => ⟨Reads.all hts.1 (h List.mem_cons_self),
      ReadsAll.all hts.2 fun hstart => h (List.mem_cons_of_mem _ hstart)⟩
end

mutual
/-- A tree stands in every program that has the same entries at its places. -/
theorem Reads.transfer : ∀ {t : Tree} {start : Place}, t.Reads p reach start →
    (∀ {place label}, Relation.ReflTransGen (p.Encloses reach) start place →
      p.label? place = some label →
      q.label? place = some label) → t.Reads q reach start
  | .node _ _, _, ht, h => ⟨h .refl ht.1, ReadsAll.transfer ht.2 fun hinner hplace hlabel =>
      h (.head ⟨_, ht.1, hinner⟩ hplace) hlabel⟩
theorem ReadsAll.transfer : ∀ {ts : List Tree} {starts : List Place}, ReadsAll p reach ts starts →
    (∀ {start place label}, start ∈ starts → Relation.ReflTransGen (p.Encloses reach) start place →
      p.label? place = some label → q.label? place = some label) → ReadsAll q reach ts starts
  | [], [], _, _ => trivial
  | _ :: _, _ :: _, hts, h => ⟨Reads.transfer hts.1 (h List.mem_cons_self),
      ReadsAll.transfer hts.2 fun hstart => h (List.mem_cons_of_mem _ hstart)⟩
end

end Tree

namespace Program

/-- A place is nested in a declaration. -/
def Nests (p : Program) (root : DeclId) (place : Place) : Prop :=
  Relation.TransGen (p.Encloses .nested) (.decl root) place

/-- A value is used by an expression that is nested in a declaration. -/
def UsedIn (p : Program) (root : DeclId) (v : ValueId) : Prop :=
  ∃ e node, p.Nests root (.expr e) ∧ p.exprs.get? e = some node ∧ node.used? = some v

/-- Two programs agree on a root: the second has all declarations of the first, the expressions
nested in the root, and the values used there. -/
structure AgreesIn (p q : Program) (root : DeclId) : Prop where
  decls : p.decls.Keeps q.decls
  exprs : ∀ {e node}, p.Nests root (.expr e) → p.exprs.get? e = some node →
    q.exprs.get? e = some node
  values : ∀ {v value}, p.UsedIn root v → p.values.get? v = some value →
    q.values.get? v = some value
  valueCount : p.values.size ≤ q.values.size

theorem AgreesIn.refl (p : Program) (root : DeclId) : p.AgreesIn p root :=
  ⟨.refl _, fun _ h => h, fun _ h => h, le_rfl⟩

variable {p q : Program} {root : DeclId} {content : Declaration}

theorem AgreesIn.label (h : p.AgreesIn q root) {place : Place} {label : Label}
    (hplace : p.Nests root place) (hlabel : p.label? place = some label) :
    q.label? place = some label := by
  cases place with
  | expr e =>
    obtain ⟨node, hnode, rfl⟩ := Option.map_eq_some_iff.1 hlabel
    exact label?_eq_expr.2 ⟨rfl, h.exprs hplace hnode⟩
  | decl d =>
    obtain ⟨content, hd, rfl⟩ := Option.map_eq_some_iff.1 hlabel
    exact label?_eq_decl.2 ⟨rfl, h.decls _ _ hd⟩
  | backing d =>
    obtain ⟨content, hd, rfl⟩ := Option.map_eq_some_iff.1 hlabel
    exact label?_eq_backing.2 ⟨rfl, h.decls _ _ hd⟩

/-- **Two visits of a root end alike** if the visitors act alike on what is nested in it. -/
theorem visitBelow_alike (hp : p.Closed) (hroot : p.decls.get? root = some content)
    (hacyclic : p.AcyclicAt .nested (.decl root)) (h : p.AgreesIn q root)
    {σ : Type} {f g : Visitor σ} {good : σ → Prop} {bad : Fault → Prop}
    (hstep : ∀ {place label}, p.Nests root place → p.label? place = some label → ∀ below below',
      (∀ s, good s → Alike good bad (below s) (below' s)) → ∀ s, good s →
      Alike good bad (f label below s) (g label below' s)) {s : σ} (hs : good s) :
    Alike good bad (p.visitBelow f root s) (q.visitBelow g root s) := by
  have hlabel : p.label? (.decl root) = some (.decl root content) := label?_eq_decl.2 ⟨rfl, hroot⟩
  obtain ⟨t, ht⟩ := exists_reads (hp.completeAt ⟨_, hlabel⟩) hacyclic
  have hts := readsAll_parts ht hroot
  have hnests : ∀ {start place}, start ∈ content.parts →
      Relation.ReflTransGen (p.Encloses .nested) start place →
      p.Nests root place := fun hstart hplace => .head' ⟨_, hlabel, hstart⟩ hplace
  have hts' : Tree.ReadsAll q .nested t.children content.parts :=
    hts.transfer fun hstart hplace => h.label (hnests hstart hplace)
  rw [visitBelow_of_reads f hroot hts, visitBelow_of_reads g (h.decls _ _ hroot) hts']
  refine Tree.visitAll_alike
    (P := fun label => ∃ place, p.Nests root place ∧ p.label? place = some label)
    (fun label hlabel => ?_)
    (hts.all fun hstart hplace hlabel => ⟨_, hnests hstart hplace, hlabel⟩) s hs
  obtain ⟨place, hplace, hlabel⟩ := hlabel
  exact hstep hplace hlabel

/-! ## §3. Questions about declarations and values. -/

section

variable (hp : p.Closed) (hkeeps : p.decls.Keeps q.decls) {d : DeclId}

section

include hkeeps

theorem decl_congr (hd : p.decls.get? d = some content) : q.decl d = p.decl d := by
  rw [decl_eq_ok.2 hd, decl_eq_ok.2 (hkeeps _ _ hd)]

theorem isClass_congr (hd : p.decls.get? d = some content) : q.isClass d = p.isClass d := by
  rw [isClass, isClass, decl_congr hkeeps hd]

theorem parent_congr (hd : p.decls.get? d = some content) : q.parent d = p.parent d := by
  rw [parent, parent, decl_congr hkeeps hd]

theorem isLocal_congr (hchains : p.ChainsEnd) (hd : p.decls.get? d = some content) :
    q.isLocal d = p.isLocal d := by
  rw [isLocal, isLocal, chain_of_keeps hchains hkeeps hd]

end

include hp hkeeps

theorem isMember_congr (hd : p.decls.get? d = some content) : q.isMember d = p.isMember d := by
  unfold isMember
  rw [parent_congr hkeeps hd, parent_of_get? hd, Except.ok_bind, Except.ok_bind]
  cases hparent : content.parent with
  | none => rfl
  | some outer =>
    obtain ⟨outerContent, houter⟩ := hp.exists_parent hd hparent
    exact isClass_congr hkeeps houter

theorem ofDeclaration?_congr (hd : p.decls.get? d = some content) :
    Scope.ofDeclaration? q d content = Scope.ofDeclaration? p d content := by
  have hinstance : Scope.enclosingInstance q content = Scope.enclosingInstance p content := by
    unfold Scope.enclosingInstance
    split
    · obtain ⟨outer, houter⟩ := hp.exists_parent hd (by rfl)
      rw [decl_congr hkeeps houter, decl_eq_ok.2 houter, Except.ok_bind, Except.ok_bind]
      split
      · obtain ⟨far, hfar⟩ := hp.exists_parent houter (by rfl)
        rw [decl_congr hkeeps hfar]
      · rfl
    · rfl
  have hcallable : Scope.ofCallable q d = Scope.ofCallable p d := by
    rw [Scope.ofCallable, Scope.ofCallable, decl_congr hkeeps hd, decl_eq_ok.2 hd, Except.ok_bind,
      Except.ok_bind, hinstance]
  unfold Scope.ofDeclaration?
  rw [hcallable]

theorem capturing?_congr (hchains : p.ChainsEnd) (hd : p.decls.get? d = some content) :
    Captures.capturing? q d = Captures.capturing? p d := by
  unfold Captures.capturing?
  rw [decl_congr hkeeps hd, decl_eq_ok.2 hd, Except.ok_bind, Except.ok_bind]
  split
  · obtain ⟨outer, houter⟩ := hp.exists_parent hd (by rfl)
    rw [isClass_congr hkeeps houter, isLocal_congr hkeeps hchains hd]
  · obtain ⟨cls, hcls⟩ := hp.exists_parent hd (by rfl)
    rw [isLocal_congr hkeeps hchains hcls, parent_congr hkeeps hcls, parent_of_get? hcls]
    cases hparent : cls.parent with
    | none => rfl
    | some outer =>
      obtain ⟨outerContent, houter⟩ := hp.exists_parent hcls hparent
      simp only [Except.ok_bind, isClass_congr hkeeps houter]
  · rfl

theorem isExternal_congr (hchains : p.ChainsEnd) {value : Value} (hv : p.values.get? v = some value)
    (hv' : q.values.get? v = some value) (s : Scope) : s.isExternal q v = s.isExternal p v := by
  cases s with
  | callable d dispatch extension enclosing =>
    simp only [Scope.isExternal, owner_of_get? hv, owner_of_get? hv']
  | cls d =>
    obtain ⟨content, howner⟩ := hp.exists_owner hv
    simp only [Scope.isExternal, owner_of_get? hv, owner_of_get? hv', Except.ok_bind,
      chain_of_keeps hchains hkeeps howner]

end

/-! ## §4. Collecting. -/

/-- Sorting a declaration answers or reports. -/
theorem add_alike (hp : p.Closed) (hkeeps : p.decls.Keeps q.decls)
    (hd : p.decls.get? d = some content) (t : Locals.Partial) :
    Alike (fun _ => True) (fun f => f.isReport = true) (t.add p d content) (t.add q d content) := by
  have hmember : ∃ b, p.isMember d = .ok b := by
    cases hparent : content.parent with
    | none => exact ⟨false, by simp only [isMember, parent_of_get? hd, hparent]; rfl⟩
    | some outer =>
      obtain ⟨outerContent, houter⟩ := hp.exists_parent hd hparent
      exact ⟨_, isMember_of_parent hd hparent houter⟩
  obtain ⟨b, hb⟩ := hmember
  simp only [Locals.Partial.add, isMember_congr hp hkeeps hd, hb, Except.ok_bind]
  cases content with
  | cls c =>
    cases b with
    | true =>
      dsimp only
      split
      · exact .ok trivial
      · exact .error rfl
    | false => exact .ok trivial
  | _ =>
    cases b with
    | true => exact .ok trivial
    | false => first | exact .ok trivial | exact .error rfl

/-- **Collecting answers alike, or reports alike.** -/
theorem locals_alike (hp : p.Closed) (hroot : p.decls.get? root = some content)
    (hacyclic : p.AcyclicAt .nested (.decl root)) (h : p.AgreesIn q root) :
    Alike (fun _ => True) (fun f => f.isReport = true) (p.locals root) (q.locals root) := by
  have hvisit : Alike (fun _ => True) (fun f => f.isReport = true)
      (p.visitBelow (Locals.visitor p) root {})
      (q.visitBelow (Locals.visitor q) root {}) := by
    refine visitBelow_alike hp hroot hacyclic h
      (fun {place label} _ hlabel below below' hbelow t _ => ?_) trivial
    cases label with
    | expr e node => exact hbelow t trivial
    | decl d content =>
      exact (hbelow t trivial).bind fun t' _ => add_alike hp h.decls (label?_eq_decl.1 hlabel).2 t'
    | backing d content =>
      cases content with
      | field f => exact hbelow t trivial
      | _ => exact .ok trivial
  exact hvisit.bind fun _ _ => .ok trivial

end Program

/-! ## §5. The walk of closure analysis. -/

namespace Captures

/-- The scopes around a reference and its callee are there. -/
def Anchored (p : Program) (r : Reference) : Prop :=
  (∀ s ∈ r.scopes, ∃ content, p.decls.get? s.decl = some content)
    ∧ ∃ content, p.decls.get? r.callee = some content

/-- A walk speaks of declarations that are there and of some values only. -/
structure Within (p : Program) (U : ValueId → Prop) (w : Walk) : Prop where
  scopes : ∀ s ∈ w.scopes, ∃ content, p.decls.get? s.decl = some content
  captured : ∀ v ∈ w.captured, U v
  closures : ∀ {d v}, w.gathered.closures.Holds d v → U v
  references : ∀ r ∈ w.gathered.references, Anchored p r

/-- Values that both programs have. -/
def Shared (p q : Program) (U : ValueId → Prop) : Prop :=
  ∀ v, U v → ∃ value, p.values.get? v = some value ∧ q.values.get? v = some value

variable {p q : Program} {U : ValueId → Prop} (hp : p.Closed) (hchains : p.ChainsEnd)
  (hkeeps : p.decls.Keeps q.decls) (hshared : Shared p q U)

include hp hchains hkeeps

theorem needed?_alike (hnode : p.exprs.get? e = some node) :
    Alike (fun callee? : Option DeclId => ∀ d, callee? = some d →
      ∃ content, p.decls.get? d = some content) ⊥ (needed? p node) (needed? q node) := by
  obtain ⟨r, hr, hdraws⟩ := needed?_eq hp hchains hnode
  refine .of_eq_ok hr ?_ fun d hd => ?_
  · rw [← hr]
    unfold needed?
    cases ha : node.access? with
    | none => rfl
    | some a =>
      obtain ⟨content, hcallee⟩ := hp.exists_callee hnode ha
      exact Program.capturing?_congr hp hkeeps hchains hcallee
  · obtain ⟨callee, -, hdraw⟩ := (hdraws d).1 hd
    cases hdraw with
    | function hf _ => exact ⟨_, hf⟩
    | constructor _ _ hbody =>
      obtain ⟨-, content, _, _, hd, -⟩ := hbody
      exact ⟨content, hd⟩

include hshared

theorem capture_alike (hv : U v) (s : Scope) (hcaptured : ∀ v ∈ captured, U v) :
    Alike (fun c : Closure => ∀ v ∈ c, U v) ⊥ (s.capture p captured v)
      (s.capture q captured v) := by
  obtain ⟨value, hvalue, hvalue'⟩ := hshared v hv
  obtain ⟨b, hb⟩ := hp.exists_isExternal hchains hvalue s
  simp only [Scope.capture,
    Program.isExternal_congr hp hkeeps hchains hvalue hvalue', hb, Except.ok_bind]
  cases b with
  | true =>
    refine .ok fun x hx => ?_
    rcases OrderedSet.mem_insert.1 hx with hx | rfl
    · exact hcaptured x hx
    · exact hv
  | false => exact .ok hcaptured

/-- A node is looked at alike. -/
theorem visitNode_alike (hnode : p.exprs.get? e = some node)
    (hused : ∀ v, node.used? = some v → U v) {w : Walk} (hw : Within p U w) :
    Alike (Within p U) ⊥ (visitNode p node w) (visitNode q node w) := by
  refine (needed?_alike hp hchains hkeeps hnode).bind fun callee? hcallee => ?_
  cases hscopes : w.scopes with
  | nil => exact .ok hw
  | cons s scopes =>
    have huse : Alike (fun c : Closure => ∀ v ∈ c, U v) ⊥ (captureUse p s w.captured node)
        (captureUse q s w.captured node) := by
      unfold captureUse
      cases hu : node.used? with
      | none => exact .ok hw.captured
      | some v => exact capture_alike hp hchains hkeeps hshared (hused v hu) s hw.captured
    have hthere := hscopes ▸ hw.scopes
    refine huse.bind fun captured hcaptured => .ok ⟨hthere, hcaptured, hw.closures, fun r hr => ?_⟩
    rcases List.mem_append.1 hr with hr | hr
    · exact hw.references r hr
    · obtain ⟨callee, hmem, rfl⟩ := List.mem_map.1 hr
      exact ⟨hthere, hcallee callee (Option.mem_toList.1 hmem)⟩

omit hp in
/-- A closure is recorded alike. -/
theorem record_alike (hd : p.decls.get? d = some content) {closure : Closure}
    (hclosure : ∀ v ∈ closure, U v) {g : Gathered} (hg : ∀ {d v}, g.closures.Holds d v → U v)
    (hreferences : ∀ r ∈ g.references, Anchored p r) :
    Alike (fun g : Gathered => (∀ {d v}, g.closures.Holds d v → U v)
        ∧ ∀ r ∈ g.references, Anchored p r) ⊥
      (record p d content closure g) (record q d content closure g) := by
  have hlocal := Program.isLocal_of_ending (hchains.ending hd)
  simp only [record, Program.isLocal_congr hkeeps hchains hd, hlocal, Except.ok_bind]
  split
  · exact .ok ⟨hg, hreferences⟩
  · have hnames : ∀ v ∈ closure.toList,
        Alike (fun _ => True) ⊥ (do return (← p.value v).name : Except Fault Name)
        (do return (← q.value v).name) := by
      intro v hv
      obtain ⟨value, hvalue, hvalue'⟩ := hshared v (hclosure v hv)
      rw [Program.value_eq_ok.2 hvalue, Program.value_eq_ok.2 hvalue']
      exact .ok trivial
    refine (Alike.mapM hnames).bind fun names _ => ?_
    refine .ok ⟨fun {x v} hx => ?_, hreferences⟩
    obtain ⟨c, hc, hv⟩ := hx
    rw [OrderedMap.get?_insert] at hc
    split at hc
    · cases hc
      exact hclosure v hv
    · exact hg ⟨c, hc, hv⟩

omit hp hchains hkeeps in
/-- Closing a scope hands out alike. -/
theorem handOut_alike {nested : Closure} (hcaptured : ∀ v ∈ captured, U v)
    (hnested : ∀ v ∈ nested, U v) :
    Alike (fun c : Closure => ∀ v ∈ c, U v) ⊥ (handOut p scopes captured nested)
      (handOut q scopes captured nested) := by
  cases scopes with
  | nil => exact .ok hcaptured
  | cons s scopes =>
    have howner : ∀ v ∈ nested.toList, q.owner v = p.owner v ∧ ∃ owner, p.owner v = .ok owner := by
      intro v hv
      obtain ⟨value, hvalue, hvalue'⟩ := hshared v (hnested v hv)
      exact ⟨by rw [Program.owner_of_get? hvalue, Program.owner_of_get? hvalue'], _,
        Program.owner_of_get? hvalue⟩
    have htest : ∀ v ∈ nested.toList,
        (do return decide ((← p.owner v) ≠ s.decl) : Except Fault Bool)
        = .ok (decide (p.owner v ≠ .ok s.decl)) := by
      intro v hv
      obtain ⟨-, owner, ho⟩ := howner v hv
      simp only [ho, Except.ok_bind, ne_eq, Except.ok.injEq]
      rfl
    have htest' : ∀ v ∈ nested.toList,
        (do return decide ((← q.owner v) ≠ s.decl) : Except Fault Bool)
        = .ok (decide (p.owner v ≠ .ok s.decl)) := by
      intro v hv
      rw [(howner v hv).1]
      exact htest v hv
    simp only [handOut, Scope.absorb]
    rw [Except.filterM_eq_ok htest, Except.filterM_eq_ok htest', Except.ok_bind]
    refine .ok ?_
    intro v hv
    rcases OrderedSet.mem_insertAll.1 hv with hv | hv
    · exact hcaptured v hv
    · exact hnested v (List.mem_of_mem_filter hv)

/-- A declaration is walked over alike. -/
theorem visitDecl_alike (hd : p.decls.get? d = some content)
    {below below' : Walk → Except Fault Walk} (hbelow : ∀ w, Within p U w →
      Alike (Within p U) ⊥ (below w) (below' w)) {w : Walk} (hw : Within p U w) :
    Alike (Within p U) ⊥ (visitDecl p d content below w) (visitDecl q d content below' w) := by
  have hscope := hp.exists_scope hd
  unfold visitDecl
  rw [Program.ofDeclaration?_congr hp hkeeps hd]
  split at hscope
  · obtain ⟨s, rfl, hs⟩ := hscope
    rw [hs, Except.ok_bind, Except.ok_bind]
    have hinner : Within p U { w with scopes := s :: w.scopes, captured := .empty } := by
      refine ⟨fun s' hs' => ?_, fun v hv => absurd hv (OrderedSet.not_mem_empty v),
        hw.closures, hw.references⟩
      rcases List.mem_cons.1 hs' with rfl | hs'
      · exact ⟨content, hd⟩
      · exact hw.scopes s' hs'
    refine (hbelow _ hinner).bind fun inner hwithin => ?_
    refine (record_alike hchains hkeeps hshared hd hwithin.captured hwithin.closures
      hwithin.references).bind fun g hg => ?_
    refine (handOut_alike hshared hw.captured hwithin.captured).bind fun captured hcaptured => ?_
    exact .ok ⟨hw.scopes, hcaptured, hg.1, hg.2⟩
  · rw [hscope]
    exact hbelow w hw

/-! ## §6. Rounds. -/

omit hp hchains in
/-- Adding a value to a closure. -/
theorem grow_alike (hcallee : ∃ content, p.decls.get? callee = some content) (hv : U v) {s : Scope}
    (hs : ∃ content, p.decls.get? s.decl = some content) {g₀ g : Growth}
    (hg : (∀ {d v}, g.closures.Holds d v → U v) ∧ Grown g₀ g) :
    Alike (fun g : Growth => (∀ {d v}, g.closures.Holds d v → U v) ∧ Grown g₀ g) ⊥
      (grow p callee v s g) (grow q callee v s g) := by
  unfold grow
  cases hc : g.closures.get? s.decl with
  | none => exact .ok hg
  | some c =>
    obtain ⟨calleeContent, hcallee⟩ := hcallee
    obtain ⟨content, hs⟩ := hs
    obtain ⟨value, hvalue, hvalue'⟩ := hshared v hv
    simp only [Program.decl_congr hkeeps hcallee, Program.decl_congr hkeeps hs,
      Program.decl_eq_ok.2 hcallee, Program.decl_eq_ok.2 hs, Program.value_eq_ok.2 hvalue,
      Program.value_eq_ok.2 hvalue', Except.ok_bind]
    split
    · exact .ok hg
    · rename_i hnot
      refine .ok ⟨fun {d x} hx => ?_,
        hg.2.trans (.insert hc (fun h => hnot (OrderedSet.contains_iff.2 h)) _)⟩
      rcases (holds_modify hc).1 hx with hx | ⟨-, rfl⟩
      · exact hg.1 hx
      · exact hv

theorem pass_alike (hcallee : ∃ content, p.decls.get? callee = some content) (hv : U v)
    {g₀ : Growth} (hscopes : ∀ s ∈ scopes, ∃ content, p.decls.get? s.decl = some content)
    (innermost : Bool) {g : Growth} (hg : (∀ {d v}, g.closures.Holds d v → U v) ∧ Grown g₀ g) :
    Alike (fun g : Growth => (∀ {d v}, g.closures.Holds d v → U v) ∧ Grown g₀ g) ⊥
      (pass p callee v innermost scopes g) (pass q callee v innermost scopes g) := by
  induction scopes generalizing innermost g with
  | nil => exact .ok hg
  | cons s scopes ih =>
    obtain ⟨value, hvalue, hvalue'⟩ := hshared v hv
    obtain ⟨external, hexternal⟩ := hp.exists_isExternal hchains hvalue s
    have hstops : stops q innermost s v = stops p innermost s v
        ∧ ∃ b, stops p innermost s v = .ok b := by
      unfold stops
      rw [Program.isExternal_congr hp hkeeps hchains hvalue hvalue', hexternal,
        Program.owner_of_get? hvalue, Program.owner_of_get? hvalue']
      refine ⟨rfl, ?_⟩
      split
      · exact ⟨_, rfl⟩
      · exact ⟨_, rfl⟩
    obtain ⟨heq, b, hb⟩ := hstops
    unfold pass
    rw [heq, hb, Except.ok_bind, Except.ok_bind]
    split
    · exact .ok hg
    · refine (grow_alike hkeeps hshared hcallee hv (hscopes s List.mem_cons_self) hg).bind
        fun g' hg' => ?_
      exact ih (fun s' hs' => hscopes s' (List.mem_cons_of_mem _ hs')) false hg'

/-- A round passes the same values, and only values that were there. -/
theorem round_alike {references : List Reference} (hreferences : ∀ r ∈ references, Anchored p r)
    {cl : Closures} (hcl : ∀ {d v}, cl.Holds d v → U v) :
    Alike (fun g : Growth => (∀ {d v}, g.closures.Holds d v → U v) ∧ Grown { closures := cl } g) ⊥
      (round p references cl) (round q references cl) := by
  refine Alike.foldlM (fun g hg r hr => ?_) ⟨hcl, .refl _⟩
  obtain ⟨hscopes, hcallee⟩ := hreferences r hr
  unfold follow
  cases hc : g.closures.get? r.callee with
  | none => exact .ok hg
  | some c =>
    refine Alike.foldlM (fun g' hg' v hv => ?_) hg
    exact pass_alike hp hchains hkeeps hshared hcallee (hg.1 ⟨c, hc, hv⟩) hscopes true hg'

/-- **Rounds end, and end alike.**  More fuel than there is room for values makes no difference. -/
theorem saturateUpTo_alike {references : List Reference}
    (hreferences : ∀ r ∈ references, Anchored p r) :
    ∀ {fuel fuel' : Nat} {cl : Closures}, (∀ {d v}, cl.Holds d v → U v) → fuel ≤ fuel' →
      cl.size * p.values.size < cl.weight + fuel →
      Alike (fun g : Growth => ∀ {d v}, g.closures.Holds d v → U v) ⊥
        (saturateUpTo p references fuel cl) (saturateUpTo q references fuel' cl) := by
  intro fuel
  induction fuel with
  | zero =>
    intro fuel' cl hcl _ hroom
    have hle : cl.weight ≤ cl.size * p.values.size := weight_le fun h => by
      obtain ⟨value, hvalue, -⟩ := hshared _ (hcl h)
      exact ⟨value, hvalue⟩
    omega
  | succ fuel ih =>
    intro fuel' cl hcl hfuel hroom
    obtain ⟨fuel', rfl⟩ : ∃ n, fuel' = n + 1 := ⟨fuel' - 1, by omega⟩
    unfold saturateUpTo
    refine (round_alike hp hchains hkeeps hshared hreferences hcl).bind fun g hg => ?_
    obtain ⟨hg, hgrown⟩ := hg
    split
    · exact .ok hg
    · rename_i hevents
      have hlength : 0 < g.events.length := List.length_pos_iff.2 fun h => hevents (by simp [h])
      have hsize : g.closures.size = cl.size := by
        simpa [OrderedMap.keys, OrderedMap.size] using congrArg List.length hgrown.keys
      have hweight := hgrown.weight
      simp only [List.length_nil, Nat.add_zero] at hweight
      exact (ih hg (by omega) (by rw [hsize]; omega)).bind fun rest hrest => .ok hrest

end Captures

namespace Program

variable {p q : Program} {root : DeclId} {content : Declaration}

/-- **Closure analysis answers, and alike**, and it finds only values that are used. -/
theorem closures_alike (hp : p.Closed) (hchains : p.ChainsEnd)
    (hroot : p.decls.get? root = some content) (hacyclic : p.AcyclicAt .nested (.decl root))
    (h : p.AgreesIn q root) :
    Alike (fun r : Closures × List Event => ∀ {d v}, r.1.Holds d v → p.UsedIn root v) ⊥
      (p.closures root) (q.closures root) := by
  have hshared : Captures.Shared p q (p.UsedIn root) := by
    rintro v hv
    obtain ⟨e, node, -, hnode, hused⟩ := id hv
    obtain ⟨value, hvalue⟩ :=
      hp.exists_value_of_expr hnode (v := v) (by simp [Expr.namedValues, hused])
    exact ⟨value, hvalue, h.values hv hvalue⟩
  have hstart : Captures.Within p (p.UsedIn root) {} :=
    ⟨by simp, by simp, by simp [Closures.Holds], by simp⟩
  have hwalk : Alike (Captures.Within p (p.UsedIn root)) ⊥
      (p.visitBelow (Captures.visitor p) root {})
      (q.visitBelow (Captures.visitor q) root {}) := by
    refine visitBelow_alike hp hroot hacyclic h
      (fun {place label} hplace hlabel below below' hbelow w hw => ?_) hstart
    cases label with
    | expr e node =>
      obtain ⟨rfl, hnode⟩ := label?_eq_expr.1 hlabel
      exact (Captures.visitNode_alike hp hchains h.decls hshared hnode
        (fun v hv => ⟨e, node, hplace, hnode, hv⟩) hw).bind hbelow
    | decl d content =>
      exact Captures.visitDecl_alike hp hchains h.decls hshared
        (label?_eq_decl.1 hlabel).2 hbelow hw
    | backing d content =>
      exact Captures.visitDecl_alike hp hchains h.decls hshared
        (label?_eq_backing.1 hlabel).2 hbelow hw
  refine hwalk.bind fun w hw => ?_
  have hfuel : w.gathered.closures.size * p.values.size + 1 ≤ w.gathered.closures.size
      * q.values.size + 1 :=
    Nat.succ_le_succ (Nat.mul_le_mul_left _ h.valueCount)
  exact (Captures.saturateUpTo_alike hp hchains h.decls hshared hw.references hw.closures
    hfuel (by omega)).bind
    fun g hg => .ok hg

end Program

end LambdaLift
