/-
  LambdaLift.Proofs.Below
  **COLLECTING SORTS WHAT IS REACHED, ONE DECLARATION AFTER THE OTHER.**

  Nothing is assumed of the program here: handles may lead nowhere and
  entries may be shared or nested in themselves.  What is reached from a
  root can be enumerated so that each declaration comes after those nested
  in it.  Collecting is a fold over this enumeration: each declaration is
  put into the table that it belongs in, by its kind and by whether it
  stands directly in a class.  It succeeds exactly when the nesting below
  the root ends within the depth it is followed to and each declaration
  there belongs in a table.

  Main results:
    * `Program.Ends.locals_eq_foldlM` — collecting is a fold over the enumeration;
    * `Locals.foldlM_induction` — what each step keeps, the fold keeps;
    * `Program.locals_spec` — what the tables of a root hold;
    * `Program.exists_locals` — when a root has tables.
-/
import Mathlib
import LambdaLift.Locals
import LambdaLift.Proofs.Placement

namespace LambdaLift

variable {d d' root : DeclId} {b : Bool} {e : ExprId} {content : Declaration} {label : Label}
  {levels n : Nat} {place : Place}

/-! ## §1. Following places. -/

/-- The places that collecting goes on to.  Of a backing field only the initializer is looked at. -/
def Label.followed : Label → List Place
  | .backing _ (.field f) => f.init.toList.map .expr
  | .backing _ _ => []
  | .expr e node => (Label.expr e node).places .nested
  | .decl _ content => content.parts

namespace Program

/-- Collecting goes from one place to the other. -/
def Follows (p : Program) (outer inner : Place) : Prop :=
  ∃ label, p.label? outer = some label ∧ inner ∈ label.followed

/-- A place is reached from a declaration: through bodies, placed declarations, members, accessors,
and the initializers of fields and backing fields. -/
def Below (p : Program) (root : DeclId) (place : Place) : Prop :=
  ∃ content, p.decls.get? root = some content ∧
    ∃ part ∈ content.parts, Relation.ReflTransGen p.Follows part place

/-- Collecting leaves out at most what a backing field brings that is no field. -/
theorem followed_subset (label : Label) : label.followed ⊆ label.places .nested := by
  cases label with
  | backing b inner => cases inner <;> simp [Label.followed, Label.places, Declaration.parts]
  | _ => exact fun _ h => h

/-- What collecting reaches, the analysis walks over. -/
theorem Below.occurs {p : Program} (h : p.Below root place) : ∃ ds, Occurs p root ds place := by
  obtain ⟨content, hroot, part, hpart, hreach⟩ := h
  induction hreach with
  | refl => exact ⟨[], .part hroot hpart⟩
  | tail _ hstep ih =>
    obtain ⟨ds, hocc⟩ := ih
    obtain ⟨label, hlabel, hinner⟩ := hstep
    exact ⟨_, .inner hocc hlabel (followed_subset label hinner)⟩

/-- The nesting at a place ends within a number of levels. -/
def Bounded (p : Program) : (levels : Nat) → Place → Prop
  | 0, _ => False
  | levels + 1, place =>
    ∃ label, p.label? place = some label ∧ ∀ inner ∈ label.followed, p.Bounded levels inner

variable {p : Program}

theorem Bounded.mono {m : Nat} (h : p.Bounded m place) (hmn : m ≤ n) : p.Bounded n place := by
  induction m generalizing n place with
  | zero => exact h.elim
  | succ m ih =>
    obtain ⟨label, hlabel, hinner⟩ := h
    obtain ⟨n, rfl⟩ : ∃ k, n = k + 1 := ⟨n - 1, by omega⟩
    exact ⟨label, hlabel, fun inner hmem => ih (hinner inner hmem) (by omega)⟩

/-- What is reached from a place whose nesting ends has an ending nesting too. -/
theorem Bounded.reached {start : Place} (h : p.Bounded n start)
    (hreach : Relation.ReflTransGen p.Follows start place) : p.Bounded n place := by
  induction hreach with
  | refl => exact h
  | tail _ hstep ih =>
    obtain ⟨label, hlabel, hmem⟩ := hstep
    cases n with
    | zero => exact ih.elim
    | succ n =>
      obtain ⟨label', hlabel', hinner⟩ := ih
      obtain rfl : label = label' := Option.mem_unique hlabel hlabel'
      exact (hinner _ hmem).mono (Nat.le_succ n)

theorem Below.tail {outer inner : Place} (h : p.Below root outer) (hstep : p.Follows outer inner) :
    p.Below root inner := by
  obtain ⟨content, hroot, part, hpart, hreach⟩ := h
  exact ⟨content, hroot, part, hpart, hreach.tail hstep⟩

/-- The parts of a declaration that is reached are reached. -/
theorem Below.part {root d : DeclId} {content : Declaration} {part : Place}
    (h : p.Below root (.decl d)) (hd : p.decls.get? d = some content)
    (hpart : part ∈ content.parts) : p.Below root part :=
  h.tail ⟨.decl d content, label?_eq_decl.2 ⟨rfl, hd⟩, hpart⟩

/-- The operands of an expression that is reached are reached. -/
theorem Below.operand {x : ExprId} {node : Expr} (h : p.Below root (.expr e))
    (he : p.exprs.get? e = some node) (hx : x ∈ node.operands) : p.Below root (.expr x) := by
  refine h.tail ⟨.expr e node, label?_eq_expr.2 ⟨rfl, he⟩, ?_⟩
  cases node <;> simp_all [Label.followed, Label.places, Expr.operands]

/-- A declaration that an expression places is reached with the expression. -/
theorem Below.placed (h : p.Below root (.expr e)) (he : p.exprs.get? e = some (.decl d)) :
    p.Below root (.decl d) :=
  h.tail ⟨.expr e (.decl d), label?_eq_expr.2 ⟨rfl, he⟩, by simp [Label.followed, Label.places]⟩

/-- The initializer of the backing field of a property that is reached is reached. -/
theorem Below.backing {b : DeclId} {q : PropertyDecl} {f : FieldDecl} (h : p.Below root (.decl d))
    (hd : p.decls.get? d = some (.property q)) (hq : q.backingField = some b)
    (hb : p.decls.get? b = some (.field f)) (hf : f.init = some e) : p.Below root (.expr e) := by
  have hbacking : p.Below root (.backing b) := h.part hd (by simp [Declaration.parts, hq])
  exact hbacking.tail
    ⟨.backing b (.field f), label?_eq_backing.2 ⟨rfl, hb⟩, by simp [Label.followed, hf]⟩

end Program

/-! ## §2. The enumeration. -/

/-- The declaration that stands at a place.  A backing field goes with its property. -/
def Label.declared : Label → List DeclId
  | .decl d _ => [d]
  | .expr _ _ | .backing _ _ => []

namespace Program

variable {p : Program}

/-- The declarations at a place, each after those nested in it, followed to a bounded depth. -/
def postorderUpTo (p : Program) : (levels : Nat) → Place → List DeclId
  | 0, _ => []
  | levels + 1, place =>
    match p.label? place with
    | none => []
    | some label => label.followed.flatMap (p.postorderUpTo levels) ++ label.declared

/-- The declarations below a root, each after those nested in it.  One that is placed twice comes
twice. -/
def postorder (p : Program) (root : DeclId) : List DeclId :=
  match p.decls.get? root with
  | none => []
  | some content => content.parts.flatMap (p.postorderUpTo p.depth)

theorem postorderUpTo_succ (h : p.label? place = some label) :
    p.postorderUpTo (levels + 1) place = label.followed.flatMap (p.postorderUpTo levels)
      ++ label.declared := by
  simp only [postorderUpTo, h]

theorem mem_declared (h : p.label? place = some label) : d ∈ label.declared ↔ place = .decl d := by
  cases place with
  | expr e =>
    obtain ⟨node, -, rfl⟩ := Option.map_eq_some_iff.1 h
    simp [Label.declared]
  | decl k =>
    obtain ⟨content, -, rfl⟩ := Option.map_eq_some_iff.1 h
    simp [Label.declared, eq_comm]
  | backing k =>
    obtain ⟨content, -, rfl⟩ := Option.map_eq_some_iff.1 h
    simp [Label.declared]

/-- What is reached from a place is enumerated. -/
theorem mem_postorderUpTo (h : p.Bounded levels place) :
    d ∈ p.postorderUpTo levels place ↔ Relation.ReflTransGen p.Follows place (.decl d) := by
  induction levels generalizing place with
  | zero => exact h.elim
  | succ levels ih =>
    obtain ⟨label, hlabel, hinner⟩ := h
    rw [postorderUpTo_succ hlabel, List.mem_append, List.mem_flatMap, mem_declared hlabel]
    constructor
    · rintro (⟨inner, hmem, hd⟩ | rfl)
      · exact .head ⟨label, hlabel, hmem⟩ ((ih (hinner inner hmem)).1 hd)
      · exact .refl
    · intro hreach
      rcases Relation.ReflTransGen.cases_head hreach
        with heq | ⟨inner, ⟨label', hlabel', hmem⟩, hreach⟩
      · exact .inr heq
      · obtain rfl : label = label' := Option.mem_unique hlabel hlabel'
        exact .inl ⟨inner, hmem, (ih (hinner inner hmem)).2 hreach⟩

/-- What is nested in a declaration comes before it. -/
theorem sublist_postorderUpTo (h : p.Bounded levels place)
    (hd : Relation.ReflTransGen p.Follows place (.decl d))
    (hnested : Relation.TransGen p.Follows (.decl d) (.decl d')) :
    [d', d].Sublist (p.postorderUpTo levels place) := by
  induction levels generalizing place with
  | zero => exact h.elim
  | succ levels ih =>
    obtain ⟨label, hlabel, hinner⟩ := h
    rw [postorderUpTo_succ hlabel]
    rcases Relation.ReflTransGen.cases_head hd with rfl | ⟨inner, ⟨label', hlabel', hmem⟩, hreach⟩
    · -- the declaration itself stands here, after everything that follows
      obtain ⟨inner, ⟨label', hlabel', hmem⟩, hreach⟩ := Relation.TransGen.head'_iff.1 hnested
      obtain rfl : label = label' := Option.mem_unique hlabel hlabel'
      have hbefore : d' ∈ label.followed.flatMap (p.postorderUpTo levels) :=
        List.mem_flatMap.2 ⟨inner, hmem, (mem_postorderUpTo (hinner inner hmem)).2 hreach⟩
      exact (List.singleton_sublist.2 hbefore).append
        (List.singleton_sublist.2 ((mem_declared hlabel).2 rfl))
    · obtain rfl : label = label' := Option.mem_unique hlabel hlabel'
      have hpart :=
        List.sublist_flatten_of_mem (List.mem_map_of_mem (f := p.postorderUpTo levels) hmem)
      exact ((ih (hinner inner hmem) hreach).trans hpart).trans (List.sublist_append_left _ _)

theorem Bounded.exists_label (h : p.Bounded levels place) :
    ∃ label, p.label? place = some label := by
  cases levels with
  | zero => exact h.elim
  | succ levels =>
    obtain ⟨label, hlabel, -⟩ := h
    exact ⟨label, hlabel⟩

/-- The nesting at a place that has a tree ends within its height. -/
theorem bounded_of_reads {t : Tree} (h : t.Reads p .nested place) (hlevels : t.height ≤ levels) :
    p.Bounded levels place := by
  induction levels generalizing t place with
  | zero =>
    obtain ⟨label, below, rfl, -⟩ := h.exists_node
    simp [Tree.height] at hlevels
  | succ levels ih =>
    obtain ⟨label, below, rfl, hlabel, hbelow⟩ := h.exists_node
    refine ⟨label, hlabel, fun inner hinner => ?_⟩
    obtain ⟨u, hu, hreads⟩ := hbelow.exists_tree (followed_subset label hinner)
    have hheight := Tree.height_le_heightAll hu
    exact ih hreads (by simp only [Tree.height] at hlevels; omega)

end Program

/-! ## §3. Where a declaration belongs. -/

/-- The four tables. -/
inductive Table where
  | functions
  | classes
  | constructors
  | members
  deriving DecidableEq

/-- The table that a declaration belongs in, given whether it stands directly in a class.  Some may
stand there only, and a class may only if it is inner. -/
def Declaration.table? : Declaration → (isMember : Bool) → Option Table
  | .function _, false => some .functions
  | .cls _, false => some .classes
  | .constructor _, true => some .constructors
  | .function _, true | .property _, true | .field _, true => some .members
  | .cls c, true => if c.isInner then some .members else none
  | .constructor _, false | .property _, false | .field _, false => none

/-- The table that a declaration belongs in. -/
def Program.table? (p : Program) (d : DeclId) : Option Table := do
  (← p.decls.get? d).table? (← (p.isMember d).toOption)

theorem Program.table?_eq_some {p : Program} {table : Table} : p.table? d = some table ↔
    ∃ content b, p.decls.get? d = some content ∧ p.isMember d = .ok b
      ∧ content.table? b = some table := by
  unfold table?
  cases p.decls.get? d <;> cases p.isMember d <;> simp [Except.toOption]

theorem Program.table?_eq {p : Program} (hd : p.decls.get? d = some content)
    (hb : p.isMember d = .ok b) : p.table? d = content.table? b := by
  simp [table?, hd, hb, Except.toOption]

/-- Whether the name is special. -/
def Program.isAnonymous (p : Program) (d : DeclId) : Bool :=
  (p.decls.get? d).any fun content => content.name.isSpecial

namespace Locals

variable {p : Program} {t t' : Partial} {table other : Table} {name : Name} {order : List DeclId}

/-- The declarations of a table, in its order. -/
def listed (l : Locals) : Table → List DeclId
  | .functions => l.functions.keys
  | .classes => l.classes.keys
  | .constructors => l.constructors.toList
  | .members => l.members.toList

/-- Puts a declaration into a table. -/
def Partial.put (t : Partial) (d : DeclId) (name : Name) : Table → Partial
  | .functions => { t with
      locals := { t.locals with functions := t.locals.functions.insert d (number name t.lambdas) }
      lambdas := numberAfter name t.lambdas }
  | .classes => { t with
      locals := { t.locals with classes := t.locals.classes.insert d (number name t.objects) }
      objects := numberAfter name t.objects }
  | .constructors =>
    { t with locals := { t.locals with constructors := t.locals.constructors.insert d } }
  | .members => { t with locals := { t.locals with members := t.locals.members.insert d } }

theorem listed_put : (t.put d name table).locals.listed other
    = if table = other ∧ d ∉ t.locals.listed other then t.locals.listed other ++ [d]
      else t.locals.listed other := by
  cases table <;> cases other
    <;> simp [Partial.put, listed, OrderedMap.keys_insert, OrderedSet.toList_insert, ite_not]

theorem toOption_add (t : Partial) (content : Declaration) (h : p.isMember d = .ok b) :
    (t.add p d content).toOption = (content.table? b).map (t.put d content.name) := by
  unfold Partial.add
  rw [h, Except.ok_bind]
  cases b <;> cases content <;> try rfl
  rename_i c
  cases hinner : c.isInner <;> simp only [Declaration.table?, hinner] <;> rfl

/-- Looks a declaration up and sorts it. -/
def Partial.sort (p : Program) (t : Partial) (d : DeclId) :
    Except Fault Partial := do t.add p d (← p.decl d)

theorem Partial.sort_eq (t : Partial) (hd : p.decls.get? d = some content) :
    t.sort p d = t.add p d content := by
  unfold Partial.sort
  rw [Program.decl_eq_ok.2 hd, Except.ok_bind]

/-- **Sorting a declaration** puts it into the table that it belongs in. -/
theorem Partial.sort_eq_ok : t.sort p d = .ok t' ↔ ∃ content table, p.decls.get? d = some content
    ∧ p.table? d = some table ∧ t' = t.put d content.name table := by
  constructor
  · intro h
    obtain ⟨content, hdecl, hadd⟩ := Except.bind_eq_ok.1 h
    obtain ⟨b, hb, -⟩ := Except.bind_eq_ok.1 hadd
    have hput := toOption_add t content hb
    rw [hadd] at hput
    obtain ⟨table, htable, rfl⟩ := Option.map_eq_some_iff.1 hput.symm
    have hd := Program.decl_eq_ok.1 hdecl
    exact ⟨content, table, hd, Program.table?_eq_some.2 ⟨content, b, hd, hb, htable⟩, rfl⟩
  · rintro ⟨content, table, hd, htable, rfl⟩
    obtain ⟨content', b, hd', hb, htable⟩ := Program.table?_eq_some.1 htable
    obtain rfl : content = content' := Option.mem_unique hd hd'
    have hput := toOption_add t content hb
    rw [t.sort_eq hd]
    cases hadd : t.add p d content <;> simp_all [Except.toOption]

/-- **What each step keeps, the fold keeps.** -/
theorem foldlM_induction {motive : List DeclId → Partial → Prop}
    (h : order.foldlM (Partial.sort p) t = .ok t') (hstart : motive [] t)
    (hstep : ∀ {done d rest t content table}, done ++ d :: rest = order →
      p.decls.get? d = some content →
      p.table? d = some table → motive done t → motive (done ++ [d]) (t.put d content.name table)) :
      motive order t' := by
  suffices hrun : ∀ rest done t, done ++ rest = order → motive done t →
      rest.foldlM (Partial.sort p) t = .ok t' →
      motive order t' from hrun order [] t rfl hstart h
  intro rest
  induction rest with
  | nil =>
    rintro done t rfl hmotive hfold
    cases hfold
    rwa [List.append_nil]
  | cons d rest ih =>
    intro done t horder hmotive hfold
    rw [List.foldlM_cons] at hfold
    obtain ⟨t₁, hsort, hfold⟩ := Except.bind_eq_ok.1 hfold
    obtain ⟨content, table, hd, htable, rfl⟩ := Partial.sort_eq_ok.1 hsort
    exact ih (done ++ [d]) _ (by simpa using horder) (hstep horder hd htable hmotive) hfold

/-- Declarations that each belong in a table can be sorted. -/
theorem exists_foldlM (h : ∀ d ∈ order, (p.table? d).isSome = true) (t : Partial) :
    ∃ t', order.foldlM (Partial.sort p) t = .ok t' := by
  induction order generalizing t with
  | nil => exact ⟨t, rfl⟩
  | cons d order ih =>
    obtain ⟨table, htable⟩ := Option.isSome_iff_exists.1 (h d List.mem_cons_self)
    obtain ⟨content, _, hd, -⟩ := Program.table?_eq_some.1 htable
    rw [List.foldlM_cons, Partial.sort_eq_ok.2 ⟨content, table, hd, htable, rfl⟩, Except.ok_bind]
    exact ih (fun x hx => h x (List.mem_cons_of_mem _ hx)) _

/-- A fold that fails stops at a declaration that cannot be sorted. -/
theorem exists_sort_of_foldlM {f : Fault} (h : order.foldlM (Partial.sort p) t = .error f) :
    ∃ d ∈ order, ∃ t, Partial.sort p t d = .error f := by
  induction order generalizing t with
  | nil => cases h
  | cons d order ih =>
    rw [List.foldlM_cons] at h
    cases hsort : t.sort p d with
    | error f' =>
      rw [hsort] at h
      cases h
      exact ⟨d, List.mem_cons_self, t, hsort⟩
    | ok t₁ =>
      rw [hsort, Except.ok_bind] at h
      obtain ⟨x, hx, hfault⟩ := ih h
      exact ⟨x, List.mem_cons_of_mem _ hx, hfault⟩

/-- The tables hold what was sorted, in the order in which it first came. -/
structure Filled (p : Program) (done : List DeclId) (t : Partial) : Prop where
  sorted : ∀ d ∈ done, (p.table? d).isSome = true
  listed : ∀ table, t.locals.listed table
    = (OrderedSet.ofList (done.filter fun d => p.table? d = some table)).toList

theorem filled_of_foldlM (h : order.foldlM (Partial.sort p) {} = .ok t') : Filled p order t' := by
  refine foldlM_induction h ⟨by simp, fun table => by cases table <;> rfl⟩ ?_
  rintro done d rest t content table - - htable hfilled
  refine ⟨fun x hx => ?_, fun other => ?_⟩
  · rcases List.mem_append.1 hx with hx | hx
    · exact hfilled.sorted x hx
    · rw [List.mem_singleton.1 hx, htable]
      rfl
  · rw [listed_put, hfilled.listed, List.filter_append]
    by_cases heq : table = other
    · simp [htable, heq, OrderedSet.ofList, OrderedSet.insertAll, OrderedSet.toList_insert, ite_not]
    · simp [htable, heq]

/-- What was sorted into a table is numbered: an anonymous declaration has the position among the
anonymous at which it first came, and nobody else has a number. -/
structure Numbered (p : Program) (done : List DeclId) (m : OrderedMap DeclId (Option Nat))
    (next : Nat) : Prop where
  mem_done : ∀ {d}, d ∈ m.keys → d ∈ done
  next_eq : next = (done.filter p.isAnonymous).length
  number_eq : ∀ d, (m.get? d).join = (done.filter p.isAnonymous).idxOf? d

theorem Numbered.insert {done : List DeclId} {m : OrderedMap DeclId (Option Nat)} {next : Nat}
    (h : Numbered p done m next) (hd : p.decls.get? d = some content) :
    Numbered p (done ++ [d]) (m.insert d (number content.name next))
      (numberAfter content.name next) := by
  have hname : p.isAnonymous d = content.name.isSpecial := by simp [Program.isAnonymous, hd]
  have hmem : ∀ {x}, x ∈ (m.insert d (number content.name next)).keys → x ∈ done ++ [d] := by
    intro x hx
    rw [OrderedMap.keys_insert] at hx
    split at hx
    · exact List.mem_append_left _ (h.mem_done hx)
    · exact List.mem_append.2 ((List.mem_append.1 hx).imp_left h.mem_done)
  cases hspecial : content.name.isSpecial with
  | false =>
    have hfilter : (done ++ [d]).filter p.isAnonymous = done.filter p.isAnonymous := by
      simp [hname, hspecial]
    refine ⟨hmem, by simp only [numberAfter, hspecial, hfilter]; exact h.next_eq, fun x => ?_⟩
    rw [hfilter, ← h.number_eq, OrderedMap.get?_insert]
    split
    next hnew =>
      rw [hnew.1, OrderedMap.get?_eq_none_iff.2 hnew.2]
      simp [number, hspecial]
    next => rfl
  | true =>
    have hfilter : (done ++ [d]).filter p.isAnonymous = done.filter p.isAnonymous ++ [d] := by
      simp [hname, hspecial]
    refine ⟨hmem, by simp [numberAfter, hspecial, hfilter, h.next_eq], fun x => ?_⟩
    have happend : (done.filter p.isAnonymous ++ [d]).idxOf? x
        = ((m.get? x).join).or (if x = d then some next else none) := by
      rw [h.number_eq, h.next_eq]
      unfold List.idxOf?
      rw [List.findIdx?_append]
      by_cases hx : d = x
      · simp [hx]
      · simp [hx, Ne.symm hx]
    rw [hfilter, happend, OrderedMap.get?_insert]
    by_cases hx : x = d
    · subst hx
      by_cases hkeys : x ∈ m.keys
      · -- it came before, so it has the number that it got then
        have hold : x ∈ done.filter p.isAnonymous :=
          List.mem_filter.2 ⟨h.mem_done hkeys, hname.trans hspecial⟩
        obtain ⟨i, hi⟩ :=
          Option.ne_none_iff_exists'.1 (mt List.idxOf?_eq_none_iff.1 (not_not.2 hold))
        rw [if_neg (fun hnew => hnew.2 hkeys), h.number_eq, hi]
        rfl
      · rw [if_pos ⟨rfl, hkeys⟩, OrderedMap.get?_eq_none_iff.2 hkeys]
        simp [number, hspecial]
    · simp [hx]

/-- **Sorting numbers the anonymous** functions and the anonymous classes. -/
theorem numbered_of_foldlM (h : order.foldlM (Partial.sort p) {} = .ok t') :
    Numbered p (order.filter fun d => p.table? d = some .functions) t'.locals.functions t'.lambdas
      ∧ Numbered p
        (order.filter fun d => p.table? d = some .classes) t'.locals.classes t'.objects := by
  have hnone : Numbered p [] .empty 0 := ⟨fun hd => hd, rfl, fun _ => rfl⟩
  refine foldlM_induction h (motive := fun done t =>
    Numbered p (done.filter fun d => p.table? d = some .functions) t.locals.functions t.lambdas
      ∧ Numbered p (done.filter fun d => p.table? d = some .classes) t.locals.classes
      t.objects) ⟨hnone, hnone⟩ ?_
  rintro done d rest t content table - hd htable ⟨hlambdas, hobjects⟩
  have hsame : ∀ other, table = other → (done ++ [d]).filter (fun x => p.table? x = some other)
      = done.filter (fun x => p.table? x = some other) ++ [d] := by
    rintro other rfl
    simp [htable]
  have hother : ∀ other, table ≠ other → (done ++ [d]).filter (fun x => p.table? x = some other)
      = done.filter (fun x => p.table? x = some other) := by
    intro other hne
    simp [htable, hne]
  cases table with
  | functions =>
    rw [hsame .functions rfl, hother .classes (by decide)]
    exact ⟨hlambdas.insert hd, hobjects⟩
  | classes =>
    rw [hother .functions (by decide), hsame .classes rfl]
    exact ⟨hlambdas, hobjects.insert hd⟩
  | _ =>
    rw [hother .functions (by decide), hother .classes (by decide)]
    exact ⟨hlambdas, hobjects⟩

end Locals

/-! ## §4. Collecting is a fold. -/

namespace Program

variable {p : Program}

/-- Folds over places, each visited by a fold over its declarations, are one fold. -/
theorem foldlM_flatMap {places : List Place}
    {visit : Place → Locals.Partial → Except Fault Locals.Partial} {order : Place → List DeclId}
    (h : ∀ place ∈ places, ∀ t, visit place t = (order place).foldlM (Locals.Partial.sort p) t)
    (t : Locals.Partial) :
    places.foldlM (fun t place => visit place t) t = (places.flatMap order).foldlM
      (Locals.Partial.sort p) t := by
  induction places generalizing t with
  | nil => rfl
  | cons place places ih =>
    rw [List.foldlM_cons, List.flatMap_cons, List.foldlM_append, h place List.mem_cons_self]
    congr 1
    funext t₁
    exact ih (fun other hother => h other (List.mem_cons_of_mem _ hother)) t₁

/-- A visit looks at what follows first, and then sorts what is declared. -/
theorem visitUpTo_succ (hlabel : p.label? place = some label) (t : Locals.Partial) :
    p.visitUpTo .nested (Locals.visitor p) (levels + 1) place t = (do
      let t ← label.followed.foldlM
        (fun t inner => p.visitUpTo .nested (Locals.visitor p) levels inner t) t
      label.declared.foldlM (Locals.Partial.sort p) t) := by
  rw [visitUpTo, hlabel]
  cases label with
  | expr e node =>
    simp only [Label.declared, List.foldlM_nil, bind_pure]
    rfl
  | decl d content =>
    obtain ⟨rfl, hd⟩ := label?_eq_decl.1 hlabel
    simp only [Label.declared, List.foldlM_cons, List.foldlM_nil, bind_pure,
      Locals.Partial.sort_eq _ hd]
    rfl
  | backing d content =>
    simp only [Label.declared, List.foldlM_nil, bind_pure]
    cases content <;> rfl

/-- Visiting a place is sorting the declarations there one by one. -/
theorem visitUpTo_eq_foldlM (h : p.Bounded levels place) (t : Locals.Partial) :
    p.visitUpTo .nested (Locals.visitor p) levels place t
      = (p.postorderUpTo levels place).foldlM (Locals.Partial.sort p) t := by
  induction levels generalizing place t with
  | zero => exact h.elim
  | succ levels ih =>
    obtain ⟨label, hlabel, hinner⟩ := h
    rw [visitUpTo_succ hlabel, postorderUpTo_succ hlabel, List.foldlM_append,
      foldlM_flatMap (fun inner hmem => ih (hinner inner hmem)) t]

/-- A visit of places succeeds only if the visit of each does. -/
theorem exists_visit_of_foldlM {visit : Place → Locals.Partial → Except Fault Locals.Partial}
    {places : List Place} {t t' : Locals.Partial}
    (h : places.foldlM (fun t place => visit place t) t = .ok t') :
    ∀ place ∈ places, ∃ s s', visit place s = .ok s' := by
  induction places generalizing t with
  | nil => simp
  | cons first places ih =>
    rw [List.foldlM_cons] at h
    obtain ⟨t₁, hfirst, h⟩ := Except.bind_eq_ok.1 h
    rw [List.forall_mem_cons]
    exact ⟨⟨t, t₁, hfirst⟩, ih h⟩

/-- What was visited ends within the depth it was followed to. -/
theorem bounded_of_visit {t t' : Locals.Partial}
    (h : p.visitUpTo .nested (Locals.visitor p) levels place t = .ok t') :
    p.Bounded levels place := by
  induction levels generalizing place t t' with
  | zero => cases h
  | succ levels ih =>
    cases hlabel : p.label? place with
    | none =>
      rw [visitUpTo, hlabel] at h
      cases h
    | some label =>
      rw [visitUpTo_succ hlabel] at h
      obtain ⟨t₁, hfold, -⟩ := Except.bind_eq_ok.1 h
      refine ⟨label, hlabel, fun inner hinner => ?_⟩
      obtain ⟨s, s', hvisit⟩ := exists_visit_of_foldlM hfold inner hinner
      exact ih hvisit

/-- The nesting below a root ends. -/
def Ends (p : Program) (root : DeclId) : Prop :=
  ∃ content, p.decls.get? root = some content ∧ ∀ part ∈ content.parts, p.Bounded p.depth part

/-- **Collecting is a fold over the enumeration.** -/
theorem Ends.locals_eq_foldlM (h : p.Ends root) :
    p.locals root
      = (do return (← (p.postorder root).foldlM (Locals.Partial.sort p) {}).locals) := by
  obtain ⟨content, hroot, hbounded⟩ := h
  have hfold := foldlM_flatMap (fun part hpart => visitUpTo_eq_foldlM (hbounded part hpart)) {}
  unfold locals visitBelow postorder
  rw [decl_eq_ok.2 hroot, Except.ok_bind, hroot]
  exact congrArg (fun x : Except Fault Locals.Partial => x >>= fun t => pure t.locals) hfold

/-- What has been collected is the enumeration sorted. -/
theorem exists_foldlM_of_locals {l : Locals} (h : p.locals root = .ok l) :
    p.Ends root ∧ ∃ t, (p.postorder root).foldlM (Locals.Partial.sort p) {} = .ok t
      ∧ t.locals = l := by
  have hends : p.Ends root := by
    obtain ⟨t, hvisit, -⟩ := Except.bind_eq_ok.1 h
    obtain ⟨content, hroot, hvisit⟩ := Except.bind_eq_ok.1 hvisit
    refine ⟨content, decl_eq_ok.1 hroot, fun part hpart => ?_⟩
    obtain ⟨s, s', hpart⟩ := exists_visit_of_foldlM hvisit part hpart
    exact bounded_of_visit hpart
  rw [hends.locals_eq_foldlM] at h
  obtain ⟨t, ht, hl⟩ := Except.bind_eq_ok.1 h
  exact ⟨hends, t, ht, Except.ok.inj hl⟩

/-! ## §5. The tables of a root. -/

/-- The enumeration has what is reached from the root. -/
theorem Ends.mem_postorder (h : p.Ends root) : d ∈ p.postorder root ↔ p.Below root (.decl d) := by
  obtain ⟨content, hroot, hbounded⟩ := h
  unfold postorder Below
  simp only [hroot, List.mem_flatMap, Option.some.injEq, exists_eq_left']
  constructor
  · rintro ⟨part, hpart, hd⟩
    exact ⟨part, hpart, (mem_postorderUpTo (hbounded part hpart)).1 hd⟩
  · rintro ⟨part, hpart, hd⟩
    exact ⟨part, hpart, (mem_postorderUpTo (hbounded part hpart)).2 hd⟩

/-- Collecting stops at a declaration that cannot be sorted. -/
theorem Ends.exists_sort_of_locals {f : Fault} (h : p.Ends root) (hl : p.locals root = .error f) :
    ∃ d, p.Below root (.decl d) ∧ ∃ t, Locals.Partial.sort p t d = .error f := by
  rw [h.locals_eq_foldlM] at hl
  cases hfold : (p.postorder root).foldlM (Locals.Partial.sort p) {} with
  | ok t =>
    rw [hfold] at hl
    cases hl
  | error f' =>
    rw [hfold] at hl
    cases hl
    obtain ⟨d, hd, hsort⟩ := Locals.exists_sort_of_foldlM hfold
    exact ⟨d, h.mem_postorder.1 hd, hsort⟩

/-- What is reached has an ending nesting too. -/
theorem Ends.bounded (h : p.Ends root) (hplace : p.Below root place) : p.Bounded p.depth place := by
  obtain ⟨content, hroot, hbounded⟩ := h
  obtain ⟨content', hroot', part, hpart, hreach⟩ := hplace
  obtain rfl : content = content' := Option.mem_unique hroot hroot'
  exact (hbounded part hpart).reached hreach

/-- Collecting below the root succeeds. -/
structure Collects (p : Program) (root : DeclId) : Prop where
  ends : p.Ends root
  sorts : ∀ {d}, p.Below root (.decl d) → (p.table? d).isSome = true

/-- The tables hold what is reached from the root. -/
structure Sorted (p : Program) (root : DeclId) (l : Locals) : Prop where
  functions : ∀ d, d ∈ l.functions.keys ↔ p.Below root (.decl d) ∧ p.isMember d = .ok false
    ∧ ∃ f, p.decls.get? d = some (.function f)
  classes : ∀ d, d ∈ l.classes.keys ↔ p.Below root (.decl d) ∧ p.isMember d = .ok false
    ∧ ∃ c, p.decls.get? d = some (.cls c)
  constructors : ∀ d, d ∈ l.constructors ↔ p.Below root (.decl d)
    ∧ ∃ c, p.decls.get? d = some (.constructor c)
  members : ∀ d, d ∈ l.members ↔ p.Below root (.decl d) ∧ p.isMember d = .ok true
    ∧ ∃ content, p.decls.get? d = some content ∧ ∀ c, content ≠ .constructor c

/-- **What the tables of a root hold**, and what has to be the case for it to have tables. -/
theorem locals_spec {l : Locals} (h : p.locals root = .ok l) :
    p.Sorted root l ∧ p.Collects root := by
  obtain ⟨hends, t, ht, rfl⟩ := exists_foldlM_of_locals h
  have hfilled := Locals.filled_of_foldlM ht
  have hsorts : ∀ {d}, p.Below root (.decl d) → (p.table? d).isSome = true :=
    fun hd => hfilled.sorted _ (hends.mem_postorder.2 hd)
  have hmem : ∀ table d, d ∈ t.locals.listed table
      ↔ p.Below root (.decl d) ∧ p.table? d = some table := by
    intro table d
    rw [hfilled.listed, OrderedSet.mem_toList, OrderedSet.mem_ofList, List.mem_filter,
      hends.mem_postorder, decide_eq_true_eq]
  refine ⟨⟨fun d => (hmem .functions d).trans ?_, fun d => (hmem .classes d).trans ?_,
    fun d => (hmem .constructors d).trans ?_, fun d => (hmem .members d).trans ?_⟩, hends, hsorts⟩
  all_goals
    refine and_congr_right fun hbelow => ?_
    have hsome := hsorts hbelow
    obtain ⟨table, htable⟩ := Option.isSome_iff_exists.1 hsome
    obtain ⟨content, b, hd, hb, -⟩ := table?_eq_some.1 htable
    clear htable
    rw [table?_eq hd hb] at hsome ⊢
    simp only [hd, hb]
    cases b <;> cases content <;> simp_all [Declaration.table?]

/-- Nothing that is reached from a root with tables is missing. -/
theorem Collects.exists_label (h : p.Collects root) (hplace : p.Below root place) :
    ∃ label, p.label? place = some label := (h.ends.bounded hplace).exists_label

theorem Collects.exists_decl (h : p.Collects root) (hd : p.Below root (.decl d)) :
    ∃ content, p.decls.get? d = some content := by
  obtain ⟨label, hlabel⟩ := h.exists_label hd
  obtain ⟨content, hcontent, -⟩ := Option.map_eq_some_iff.1 hlabel
  exact ⟨content, hcontent⟩

/-- What collecting sorts stands in a class, unless it is a local function or class. -/
theorem Collects.isMember {l : Locals} (h : p.Collects root) (hsorted : p.Sorted root l)
    (hd : p.Below root (.decl d)) :
    d ∈ l.functions.keys ∨ d ∈ l.classes.keys ∨ p.isMember d = .ok true := by
  obtain ⟨table, htable⟩ := Option.isSome_iff_exists.1 (h.sorts hd)
  obtain ⟨content, b, hcontent, hb, hkind⟩ := table?_eq_some.1 htable
  rw [hsorted.functions, hsorted.classes]
  cases b with
  | true => exact .inr (.inr hb)
  | false =>
    cases content with
    | function f => exact .inl ⟨hd, hb, f, hcontent⟩
    | cls c => exact .inr (.inl ⟨hd, hb, c, hcontent⟩)
    -- anything else is refused outside of a class
    | _ => cases hkind

/-- **A root has tables** if the nesting below it ends and everything there belongs in a table. -/
theorem exists_locals (h : p.Collects root) : ∃ l, p.locals root = .ok l := by
  obtain ⟨t, ht⟩ := Locals.exists_foldlM (fun d hd => h.sorts (h.ends.mem_postorder.1 hd)) {}
  exact ⟨t.locals, by rw [h.ends.locals_eq_foldlM, ht, Except.ok_bind]; rfl⟩

end Program

end LambdaLift
