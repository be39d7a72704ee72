/-
  LambdaLift.Data.Arena
  **ARENAS AND THE HANDLES THAT POINT INTO THEM.**

  A module keeps its declarations, values and expressions in three arenas.
  An arena only ever grows: allocation appends an entry and answers with
  its position, so a handle stays good for the life of the arena.  Entries
  may be overwritten in place.

  Nothing ties a handle to an arena that holds its entry.  Following one
  that was never given out finds nothing (`get? = none`), and it is the
  caller who decides what that means.
-/
namespace LambdaLift

/-! ## §1. Handles. -/

/-- What an arena stores.  Handles of different kinds do not mix. -/
inductive Entity where
  /-- declarations -/
  | decl
  /-- values: parameters, receivers and variables -/
  | value
  /-- expressions -/
  | expr
  deriving DecidableEq, Repr

/-- The name of the handles of one kind. -/
def Entity.handleName : Entity → String
  | .decl => "DeclId"
  | .value => "ValueId"
  | .expr => "ExprId"

/-- The position of an entry in the arena of its kind. -/
structure Handle (kind : Entity) where
  /-- The position, counted from zero. -/
  index : Nat
  deriving DecidableEq, Repr, Inhabited

namespace Handle

variable {kind : Entity}

/-- The handle as messages name it: `DeclId(3)`. -/
def label (h : Handle kind) : String :=
  kind.handleName ++ "(" ++ toString h.index ++ ")"

/-- The handle without its kind: `#3`. -/
def concise (h : Handle kind) : String :=
  "#" ++ toString h.index

end Handle

/-- A handle of a declaration. -/
abbrev DeclId := Handle .decl

/-- A handle of a value. -/
abbrev ValueId := Handle .value

/-- A handle of an expression. -/
abbrev ExprId := Handle .expr

/-! ## §2. Arenas. -/

/-- A growing sequence of entries, addressed by handles of one kind. -/
structure Arena (kind : Entity) (α : Type) where
  /-- The entries, in allocation order. -/
  entries : Array α := #[]
  deriving DecidableEq, Repr, Inhabited

namespace Arena

variable {kind : Entity} {α : Type}

/-- The arena without entries. -/
def empty : Arena kind α := {}

/-- The number of entries. -/
def size (a : Arena kind α) : Nat := a.entries.size

/-- The handle that the next allocation gives out. -/
def next (a : Arena kind α) : Handle kind := ⟨a.size⟩

/-- Appends an entry and answers with its handle. -/
def alloc (a : Arena kind α) (x : α) : Handle kind × Arena kind α :=
  (a.next, ⟨a.entries.push x⟩)

/-- The entry under a handle, if there is one. -/
def get? (a : Arena kind α) (h : Handle kind) : Option α := a.entries[h.index]?

/-- Overwrites the entry under a handle.  Without such an entry nothing changes. -/
def set (a : Arena kind α) (h : Handle kind) (x : α) : Arena kind α :=
  ⟨a.entries.setIfInBounds h.index x⟩

/-- The entries with their handles, in allocation order. -/
def toList (a : Arena kind α) : List (Handle kind × α) :=
  a.entries.toList.mapIdx fun i x => (⟨i⟩, x)

/-! ## §3. What each operation does to `size` and `get?`. -/

@[simp] theorem size_empty : (empty : Arena kind α).size = 0 := rfl

@[simp] theorem get?_empty (h : Handle kind) : (empty : Arena kind α).get? h = none := by
  simp [empty, get?]

@[simp] theorem alloc_fst (a : Arena kind α) (x : α) : (a.alloc x).1 = a.next := rfl

@[simp] theorem index_next (a : Arena kind α) : a.next.index = a.size := rfl

@[simp] theorem size_alloc (a : Arena kind α) (x : α) : (a.alloc x).2.size = a.size + 1 := by
  simp [alloc, size]

@[simp] theorem size_set (a : Arena kind α) (h : Handle kind) (x : α) :
    (a.set h x).size = a.size := by
  simp [set, size]

/-- A handle has an entry exactly when its position is below the size. -/
theorem get?_isSome_iff (a : Arena kind α) (h : Handle kind) :
    (a.get? h).isSome ↔ h.index < a.size := by
  simp [get?, size]

theorem get?_eq_none_iff (a : Arena kind α) (h : Handle kind) :
    a.get? h = none ↔ a.size ≤ h.index := by
  simp [get?, size]

theorem get?_alloc (a : Arena kind α) (x : α) (h : Handle kind) :
    (a.alloc x).2.get? h = if h = a.next then some x else a.get? h := by
  simp only [alloc, get?, Array.getElem?_push, next, size]
  cases h
  simp

@[simp] theorem get?_alloc_next (a : Arena kind α) (x : α) :
    (a.alloc x).2.get? a.next = some x := by
  simp [get?_alloc]

/-- Allocation keeps every entry that was there. -/
theorem get?_alloc_of_some {a : Arena kind α} {h : Handle kind} {y : α} (x : α)
    (hy : a.get? h = some y) : (a.alloc x).2.get? h = some y := by
  have hlt : h.index < a.size := (get?_isSome_iff a h).1 (by simp [hy])
  have hne : h ≠ a.next := by
    intro heq
    rw [heq] at hlt
    exact Nat.lt_irrefl _ hlt
  rw [get?_alloc, if_neg hne, hy]

theorem get?_set (a : Arena kind α) (h k : Handle kind) (x : α) :
    (a.set h x).get? k = if k = h ∧ h.index < a.size then some x else a.get? k := by
  obtain ⟨i⟩ := h
  obtain ⟨j⟩ := k
  simp only [set, get?, size, Array.getElem?_setIfInBounds, Handle.mk.injEq]
  by_cases hij : i = j
  · subst hij
    by_cases hi : i < a.entries.size
    · simp [hi]
    · simp [hi]
  · simp [hij, Ne.symm hij]

theorem get?_set_of_ne (a : Arena kind α) {h k : Handle kind} (x : α) (hne : k ≠ h) :
    (a.set h x).get? k = a.get? k := by
  simp [get?_set, hne]

end Arena

end LambdaLift
