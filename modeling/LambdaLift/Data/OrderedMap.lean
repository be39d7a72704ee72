/-
  LambdaLift.Data.OrderedMap
  **FINITE MAPS THAT REMEMBER THE ORDER OF INSERTION.**

  Tables are read back in the order in which their keys arrived.  The
  plain `insert` lets the first entry of a key win; `insertOrReplace`
  keeps the position and changes the value; `insertNew` reports a key that
  already holds something else.
-/
namespace LambdaLift

/-- Pairs of a key and a value, in insertion order, with distinct keys. -/
structure OrderedMap (κ α : Type) where
  /-- The entries, oldest first. -/
  entries : List (κ × α)
  /-- No key stands twice. -/
  nodup_keys : (entries.map Prod.fst).Nodup
  deriving DecidableEq

namespace OrderedMap

variable {κ α : Type}

/-! ## §1. Looking in. -/

/-- The map without entries. -/
def empty : OrderedMap κ α := ⟨[], List.nodup_nil⟩

instance : Inhabited (OrderedMap κ α) := ⟨empty⟩

/-- The keys, oldest first. -/
def keys (m : OrderedMap κ α) : List κ := m.entries.map Prod.fst

/-- The values, in the order of their keys. -/
def values (m : OrderedMap κ α) : List α := m.entries.map Prod.snd

/-- The number of entries. -/
def size (m : OrderedMap κ α) : Nat := m.entries.length

/-- Whether there are no entries. -/
def isEmpty (m : OrderedMap κ α) : Bool := m.entries.isEmpty

@[simp] theorem keys_empty : (empty : OrderedMap κ α).keys = [] := rfl

theorem keys_nodup (m : OrderedMap κ α) : m.keys.Nodup := m.nodup_keys

variable [DecidableEq κ]

/-- The value under a key. -/
def get? (m : OrderedMap κ α) (k : κ) : Option α := m.entries.lookup k

/-- Whether a key has a value. -/
def contains (m : OrderedMap κ α) (k : κ) : Bool := m.entries.any fun e => decide (e.1 = k)

@[simp] theorem contains_iff {m : OrderedMap κ α} {k : κ} : m.contains k = true ↔ k ∈ m.keys := by
  simp only [contains, List.any_eq_true, decide_eq_true_eq, keys, List.mem_map]

/-! ## §2. Changing entries. -/

/-- Changes the value under a key, if there is one, and leaves the order alone. -/
def modify (m : OrderedMap κ α) (k : κ) (f : α → α) : OrderedMap κ α where
  entries := m.entries.map fun e => if e.1 = k then (e.1, f e.2) else e
  nodup_keys := by
    have h : (m.entries.map fun e => if e.1 = k then (e.1, f e.2) else e).map Prod.fst
        = m.entries.map Prod.fst := by
      rw [List.map_map]
      apply List.map_congr_left
      intro e _
      by_cases he : e.1 = k <;> simp [he]
    rw [h]
    exact m.nodup_keys

/-- Adds an entry at the end unless the key is there: the first entry of a key wins. -/
def insert (m : OrderedMap κ α) (k : κ) (a : α) : OrderedMap κ α :=
  if h : m.contains k then m
  else
    { entries := m.entries ++ [(k, a)]
      nodup_keys := by
        rw [List.map_append, List.nodup_append]
        refine ⟨m.nodup_keys, by simp, ?_⟩
        intro x hx y hy
        simp only [List.map_cons, List.map_nil, List.mem_singleton] at hy
        subst hy
        exact fun heq => h (contains_iff.2 (heq ▸ hx)) }

/-- Adds an entry, or gives the key a new value at its old position. -/
def insertOrReplace (m : OrderedMap κ α) (k : κ) (a : α) : OrderedMap κ α :=
  if m.contains k then m.modify k fun _ => a else m.insert k a

/-- Adds an entry.  A key that already holds another value is refused, and that value is the
answer. -/
def insertNew [DecidableEq α] (m : OrderedMap κ α) (k : κ) (a : α) : Except α (OrderedMap κ α) :=
  match m.get? k with
  | some current => if current = a then .ok m else .error current
  | none => .ok (m.insert k a)

/-- Adds entries from left to right. -/
def insertAll (m : OrderedMap κ α) (es : List (κ × α)) : OrderedMap κ α :=
  es.foldl (fun m e => m.insert e.1 e.2) m

/-- The entries of a list, the first of each key. -/
def ofList (es : List (κ × α)) : OrderedMap κ α := empty.insertAll es

/-! ## §3. What each operation does to the keys and the values. -/

@[simp] theorem get?_empty (k : κ) : (empty : OrderedMap κ α).get? k = none := rfl

theorem get?_eq_none_iff {m : OrderedMap κ α} {k : κ} : m.get? k = none ↔ k ∉ m.keys := by
  unfold get? keys
  generalize m.entries = es
  induction es with
  | nil => simp
  | cons e es ih =>
    obtain ⟨j, a⟩ := e
    by_cases h : k = j
    · simp [h]
    · have hb : (k == j) = false := by simp [h]
      simp [List.lookup_cons, hb, ih, h]

/-- Looking up a key finds its one entry. -/
theorem get?_eq_some_iff {m : OrderedMap κ α} {k : κ} {a : α} :
    m.get? k = some a ↔ (k, a) ∈ m.entries := by
  obtain ⟨es, hnodup⟩ := m
  simp only [get?]
  induction es with
  | nil => simp
  | cons e es ih =>
    obtain ⟨j, b⟩ := e
    rw [List.map_cons, List.nodup_cons] at hnodup
    by_cases h : k = j
    · subst h
      have hnot : (k, a) ∉ es := fun hmem => hnodup.1 (List.mem_map.2 ⟨_, hmem, rfl⟩)
      simp [hnot, eq_comm]
    · have hb : (k == j) = false := by simp [h]
      simp [List.lookup_cons, hb, ih hnodup.2, h]

theorem keys_insert (m : OrderedMap κ α) (k : κ) (a : α) :
    (m.insert k a).keys = if k ∈ m.keys then m.keys else m.keys ++ [k] := by
  unfold insert
  by_cases h : k ∈ m.keys
  · rw [dif_pos (contains_iff.2 h), if_pos h]
  · rw [dif_neg (fun hc => h (contains_iff.1 hc)), if_neg h]
    simp [keys]

/-- The first entry of a key wins. -/
theorem get?_insert (m : OrderedMap κ α) (k j : κ) (a : α) :
    (m.insert k a).get? j = if j = k ∧ k ∉ m.keys then some a else m.get? j := by
  unfold insert
  by_cases h : k ∈ m.keys
  · simp [h]
  · rw [dif_neg (fun hc => h (contains_iff.1 hc))]
    simp only [h, not_false_eq_true, and_true]
    by_cases hj : j = k
    · subst hj
      have hn : m.get? j = none := get?_eq_none_iff.2 h
      unfold get? at hn
      simp [get?, List.lookup_append, hn]
    · have hb : (j == k) = false := by simp [hj]
      simp [get?, List.lookup_append, List.lookup_cons, hb, hj]

@[simp] theorem keys_modify (m : OrderedMap κ α) (k : κ) (f : α → α) :
    (m.modify k f).keys = m.keys := by
  simp only [keys, modify, List.map_map]
  apply List.map_congr_left
  intro e _
  by_cases he : e.1 = k <;> simp [he]

theorem get?_modify (m : OrderedMap κ α) (k j : κ) (f : α → α) :
    (m.modify k f).get? j = if j = k then (m.get? j).map f else m.get? j := by
  unfold get? modify
  simp only
  generalize m.entries = es
  induction es with
  | nil => by_cases h : j = k <;> simp [h]
  | cons e es ih =>
    obtain ⟨i, a⟩ := e
    by_cases hj : j = i
    · subst hj
      by_cases h : j = k <;> simp [h]
    · have hb : (j == i) = false := by simp [hj]
      by_cases hi : i = k
      · simp only [List.map_cons, hi, if_true, List.lookup_cons]
        rw [hi] at hb
        simp only [hb]
        exact ih
      · simp only [List.map_cons, hi, if_false, List.lookup_cons, hb]
        exact ih

end OrderedMap

end LambdaLift
