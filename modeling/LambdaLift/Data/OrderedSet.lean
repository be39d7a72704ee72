/-
  LambdaLift.Data.OrderedSet
  **FINITE SETS THAT REMEMBER THE ORDER OF INSERTION.**

  Captured values become parameters and fields, one after the other, so
  the order in which they were met is part of the answer.  An element that
  is inserted again keeps its first position.  The elements are a list
  without duplicates, and the type says so.
-/
namespace LambdaLift

/-- A list without duplicates, in insertion order. -/
structure OrderedSet (α : Type) where
  /-- The elements, oldest first. -/
  toList : List α
  /-- No element stands twice. -/
  nodup : toList.Nodup
  deriving DecidableEq

namespace OrderedSet

variable {α : Type}

/-! ## §1. Operations. -/

/-- The set without elements. -/
def empty : OrderedSet α := ⟨[], List.nodup_nil⟩

instance : Inhabited (OrderedSet α) := ⟨empty⟩

instance : Membership α (OrderedSet α) := ⟨fun s a => a ∈ s.toList⟩

@[simp] theorem mem_toList {s : OrderedSet α} {a : α} : a ∈ s.toList ↔ a ∈ s := Iff.rfl

@[simp] theorem toList_empty : (empty : OrderedSet α).toList = [] := rfl

@[simp] theorem not_mem_empty (a : α) : a ∉ (empty : OrderedSet α) := by
  simp [← mem_toList]

/-- The number of elements. -/
def size (s : OrderedSet α) : Nat := s.toList.length

variable [DecidableEq α]

instance (a : α) (s : OrderedSet α) : Decidable (a ∈ s) :=
  inferInstanceAs (Decidable (a ∈ s.toList))

/-- Whether an element is in the set. -/
def contains (s : OrderedSet α) (a : α) : Bool := decide (a ∈ s)

/-- Adds an element at the end unless it is there already. -/
def insert (s : OrderedSet α) (a : α) : OrderedSet α :=
  if h : a ∈ s.toList then s
  else ⟨s.toList ++ [a], by
    rw [List.nodup_append]
    refine ⟨s.nodup, by simp, ?_⟩
    intro x hx y hy
    rw [List.mem_singleton] at hy
    subst hy
    exact fun heq => h (heq ▸ hx)⟩

/-- Adds the elements of a list, from left to right. -/
def insertAll (s : OrderedSet α) (as : List α) : OrderedSet α := as.foldl insert s

/-- The elements of a list, each at its first position. -/
def ofList (as : List α) : OrderedSet α := empty.insertAll as

/-- The set of one element. -/
def singleton (a : α) : OrderedSet α := empty.insert a

/-- The elements of the first set, then what the second adds. -/
def union (s t : OrderedSet α) : OrderedSet α := s.insertAll t.toList

/-- The position of an element. -/
def position? (s : OrderedSet α) (a : α) : Option Nat := s.toList.findIdx? (fun b => b = a)

/-- Equality of the elements, whatever their order. -/
def sameElements (s t : OrderedSet α) : Bool :=
  s.size == t.size && s.toList.all t.contains

/-! ## §2. What each operation does to the elements. -/

@[simp] theorem contains_iff {s : OrderedSet α} {a : α} : s.contains a = true ↔ a ∈ s := by
  simp [contains]

theorem toList_insert (s : OrderedSet α) (a : α) :
    (s.insert a).toList = if a ∈ s then s.toList else s.toList ++ [a] := by
  unfold insert
  by_cases h : a ∈ s
  · simp [h]
  · simp [h]

@[simp] theorem mem_insert {s : OrderedSet α} {a b : α} : b ∈ s.insert a ↔ b ∈ s ∨ b = a := by
  rw [← mem_toList, toList_insert]
  by_cases h : a ∈ s
  · simp only [h, if_true, mem_toList]
    exact ⟨Or.inl, fun hb => hb.elim id (fun heq => heq ▸ h)⟩
  · simp [h]

@[simp] theorem mem_insertAll {as : List α} {s : OrderedSet α} {b : α} :
    b ∈ s.insertAll as ↔ b ∈ s ∨ b ∈ as := by
  induction as generalizing s with
  | nil => simp [insertAll]
  | cons a as ih =>
    have hstep : s.insertAll (a :: as) = (s.insert a).insertAll as := rfl
    rw [hstep, ih, mem_insert, List.mem_cons, or_assoc]

@[simp] theorem mem_ofList {as : List α} {b : α} : b ∈ ofList as ↔ b ∈ as := by
  simp [ofList]

@[simp] theorem mem_union {s t : OrderedSet α} {b : α} : b ∈ s.union t ↔ b ∈ s ∨ b ∈ t := by
  simp [union]

end OrderedSet

end LambdaLift
