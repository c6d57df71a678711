/-!
# Ordered collections

Sorted lists without duplicates, and sorted lists of pairs that hold one value for each
key. A key is put in at its place; a pair that is put in again replaces the value. Strings
are ordered by their code points, which is also the order of their UTF-8 bytes.
-/

namespace LiveIsolation

namespace Ordered

variable {κ ν : Type} (lt : κ → κ → Bool) [DecidableEq κ]

/-- Puts a key in at its place; a key that is there stays alone. -/
def insert (k : κ) : List κ → List κ
  | [] => [k]
  | a :: rest => if k = a then a :: rest else if lt k a then k :: a :: rest else a :: insert k rest

/-- The members of a list in order, each once. -/
def ofList (xs : List κ) : List κ := xs.foldl (fun acc x => insert lt x acc) []

/-- Puts a pair in at its place, or changes the value of a key that is there by `merge`. -/
def insertWith (merge : ν → ν → ν) (k : κ) (v : ν) : List (κ × ν) → List (κ × ν)
  | [] => [(k, v)]
  | (a, w) :: rest =>
    if k = a then (a, merge w v) :: rest
    else if lt k a then (k, v) :: (a, w) :: rest
    else (a, w) :: insertWith merge k v rest

theorem mem_insert {k x : κ} {xs : List κ} : x ∈ insert lt k xs ↔ x = k ∨ x ∈ xs := by
  induction xs with
  | nil => simp [insert]
  | cons a rest ih =>
      unfold insert
      split
      · rename_i h
        subst h
        simp
      · split
        · simp
        · simp only [List.mem_cons, ih]
          exact or_left_comm

theorem mem_foldl_insert {x : κ} (xs acc : List κ) :
    x ∈ xs.foldl (fun acc x => insert lt x acc) acc ↔ x ∈ xs ∨ x ∈ acc := by
  induction xs generalizing acc with
  | nil => simp
  | cons a rest ih =>
      rw [List.foldl_cons, ih, mem_insert]
      simp only [List.mem_cons]
      constructor
      · rintro (h | h | h)
        · exact .inl (.inr h)
        · exact .inl (.inl h)
        · exact .inr h
      · rintro ((h | h) | h)
        · exact .inr (.inl h)
        · exact .inl h
        · exact .inr (.inr h)

@[simp] theorem mem_ofList {x : κ} {xs : List κ} : x ∈ ofList lt xs ↔ x ∈ xs := by
  simp [ofList, mem_foldl_insert]

/-- A pair that replaces is found under its key, and every other key keeps what it had. -/
theorem lookup_insertWith_new [BEq κ] [LawfulBEq κ] (k j : κ) (v : ν) (xs : List (κ × ν)) :
    (insertWith lt (fun _ new => new) k v xs).lookup j =
      if j = k then some v else xs.lookup j := by
  induction xs with
  | nil =>
      by_cases h : j = k
      · simp [insertWith, h]
      · have hb : (j == k) = false := by simpa using h
        simp [insertWith, List.lookup_cons, h, hb]
  | cons e rest ih =>
      obtain ⟨a, w⟩ := e
      unfold insertWith
      by_cases hj : j = k
      · subst hj
        split
        · rename_i h
          simp [← h]
        · rename_i h
          have hb : (j == a) = false := by simpa using h
          split
          · simp
          · simp [List.lookup_cons, hb, ih]
      · have hb : (j == k) = false := by simpa using hj
        split
        · rename_i h
          subst h
          simp [List.lookup_cons, hb]
        · split
          · simp [List.lookup_cons, hb]
          · simp only [List.lookup_cons, ih, hj, if_false]

end Ordered

/-- Texts in the order of their code points. -/
def textLt (a b : String) : Bool := decide (a < b)

end LiveIsolation
