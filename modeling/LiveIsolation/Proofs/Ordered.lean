import LiveIsolation.RowKey
import Mathlib.Data.List.Sort
import Mathlib.Data.String.Basic
import Mathlib.Order.Defs.Unbundled

/-!
# Looking keys up in ordered collections

What is found under a key after pairs have been put in, dropped or changed. A collection that
is filled pair by pair keeps its keys in order, so that each key stands in it once.
-/

namespace LiveIsolation

namespace Ordered

variable {κ ν μ : Type}

section Lookup
variable [BEq κ] [LawfulBEq κ]

/-- Pairs are dropped by their keys. -/
theorem lookup_filter_key (p : κ → Bool) (k : κ) (xs : List (κ × ν)) :
    (xs.filter fun e => p e.1).lookup k = if p k then xs.lookup k else none := by
  induction xs with
  | nil => simp
  | cons e rest ih =>
      obtain ⟨a, v⟩ := e
      by_cases hk : k = a
      · subst hk
        cases hp : p k <;> simp [hp, ih]
      · have hb : (k == a) = false := by simpa using hk
        cases hp : p a <;> simp [hp, List.lookup_cons, hb, ih]

/-- Values are changed and the keys stay. -/
theorem lookup_map_value (f : ν → μ) (k : κ) (xs : List (κ × ν)) :
    (xs.map fun e => (e.1, f e.2)).lookup k = (xs.lookup k).map f := by
  induction xs with
  | nil => rfl
  | cons e rest ih =>
      obtain ⟨a, v⟩ := e
      by_cases hk : k = a
      · simp [hk]
      · have hb : (k == a) = false := by simpa using hk
        simpa [List.lookup_cons, hb] using ih

theorem mem_of_lookup {k : κ} {v : ν} {xs : List (κ × ν)} (h : xs.lookup k = some v) :
    (k, v) ∈ xs := by
  obtain ⟨before, after, he, -⟩ := List.lookup_eq_some_iff.1 h
  rw [he]
  simp

theorem exists_lookup_of_mem {k : κ} {v : ν} {xs : List (κ × ν)} (h : (k, v) ∈ xs) :
    ∃ w, xs.lookup k = some w := by
  rw [← Option.isSome_iff_exists, List.lookup_isSome_iff]
  exact ⟨(k, v), h, beq_self_eq_true k⟩

end Lookup

/-- The keys stand in order, each once. -/
def Sorted (lt : κ → κ → Bool) (xs : List (κ × ν)) : Prop :=
  xs.Pairwise fun a b => lt a.1 b.1 = true

section Keys
variable {lt : κ → κ → Bool} [IsStrictTotalOrder κ (lt · · = true)]

theorem Sorted.nodup_keys {xs : List (κ × ν)} (h : Sorted lt xs) : (xs.map Prod.fst).Nodup := by
  refine List.pairwise_map.2 (List.Pairwise.imp ?_ h)
  rintro a b hab he
  rw [he] at hab
  exact irrefl_of (lt · · = true) _ hab

variable [BEq κ] [LawfulBEq κ]

/-- A key is not found behind a key that it comes before. -/
theorem lookup_eq_none_of_lt {k : κ} {xs : List (κ × ν)} (h : ∀ x ∈ xs, lt k x.1 = true) :
    xs.lookup k = none := by
  rw [List.lookup_eq_none_iff]
  intro x hx
  rw [bne_iff_ne]
  rintro rfl
  exact irrefl_of (lt · · = true) _ (h x hx)

/-- Where each key stands once, a pair that is there is found. -/
theorem Sorted.lookup_of_mem {xs : List (κ × ν)} (h : Sorted lt xs) {e : κ × ν} (he : e ∈ xs) :
    xs.lookup e.1 = some e.2 := by
  induction xs with
  | nil => cases he
  | cons x rest ih =>
      obtain ⟨hhead, hrest⟩ := List.pairwise_cons.1 h
      rcases List.mem_cons.1 he with rfl | he
      · rw [List.lookup_cons, beq_self_eq_true]
      · have hb : (e.1 == x.1) = false := by
          rw [beq_eq_false_iff_ne]
          intro heq
          have hlt := hhead e he
          rw [heq] at hlt
          exact irrefl_of (lt · · = true) _ hlt
        rw [List.lookup_cons, hb]
        exact ih hrest he

/-- Where each key stands once, the pairs are determined by what is found under the keys. -/
theorem Sorted.ext {xs ys : List (κ × ν)} (hx : Sorted lt xs) (hy : Sorted lt ys)
    (h : ∀ k, xs.lookup k = ys.lookup k) : xs = ys := by
  have hmem : ∀ {zs zs' : List (κ × ν)}, Sorted lt zs → (∀ k, zs.lookup k = zs'.lookup k) →
      ∀ e ∈ zs, e ∈ zs' := by
    intro zs zs' hz hlookup e he
    exact mem_of_lookup ((hlookup e.1).symm.trans (hz.lookup_of_mem he))
  have : Std.Irrefl fun a b : κ × ν => lt a.1 b.1 = true :=
    ⟨fun a => irrefl_of (lt · · = true) a.1⟩
  have : Std.Antisymm fun a b : κ × ν => lt a.1 b.1 = true :=
    ⟨fun a b hab hba => absurd hba (asymm_of (lt · · = true) hab)⟩
  exact List.Pairwise.eq_of_mem_iff hx hy fun e =>
    ⟨hmem hx h e, hmem hy (fun k => (h k).symm) e⟩

/-- Pairs are dropped by a test of the pair, where each key stands once. -/
theorem lookup_filter_sorted (p : κ × ν → Bool) (k : κ) {xs : List (κ × ν)} (h : Sorted lt xs) :
    (xs.filter p).lookup k = (xs.lookup k).filter fun v => p (k, v) := by
  induction xs with
  | nil => rfl
  | cons e rest ih =>
      obtain ⟨a, v⟩ := e
      obtain ⟨hhead, hrest⟩ := List.pairwise_cons.1 h
      by_cases hk : k = a
      · subst hk
        have hnone : rest.lookup k = none := lookup_eq_none_of_lt hhead
        cases hp : p (k, v) with
        | true => simp [hp, Option.filter]
        | false => simp [hp, ih hrest, hnone, Option.filter]
      · have hb : (k == a) = false := by simpa using hk
        cases hp : p (a, v) with
        | true => simp [hp, List.lookup_cons, hb, ih hrest]
        | false => simp [hp, List.lookup_cons, hb, ih hrest]

/-- The number of certain pairs, with the pair of one key apart. -/
theorem Sorted.countP_eq {xs : List (κ × ν)} (h : Sorted lt xs) (p : κ × ν → Bool) (k : κ) :
    xs.countP p =
      ((xs.lookup k).any fun v => p (k, v)).toNat + (xs.filter (·.1 != k)).countP p := by
  induction xs with
  | nil => rfl
  | cons x rest ih =>
      obtain ⟨a, v⟩ := x
      obtain ⟨hhead, hrest⟩ := List.pairwise_cons.1 h
      have hcount := List.countP_cons (p := p) (a := (a, v)) (l := rest)
      by_cases hk : a = k
      · subst hk
        have hothers : rest.filter (·.1 != a) = rest := by
          refine List.filter_eq_self.2 fun y hy => ?_
          rw [bne_iff_ne]
          rintro rfl
          exact irrefl_of (lt · · = true) _ (hhead y hy)
        have hfilter : ((a, v) :: rest).filter (·.1 != a) = rest := by
          rw [List.filter_cons_of_neg (by simp), hothers]
        rw [hcount, hfilter, List.lookup_cons, beq_self_eq_true, Option.any_some]
        cases p (a, v) <;> simp [Nat.add_comm]
      · have hkey : (k == a) = false := by simpa using fun he => hk he.symm
        have hfilter : ((a, v) :: rest).filter (·.1 != k) = (a, v) :: rest.filter (·.1 != k) :=
          List.filter_cons_of_pos (by simpa using hk)
        rw [hcount, hfilter, List.countP_cons, List.lookup_cons, hkey, ih hrest, Nat.add_assoc]

end Keys

section Order
variable [DecidableEq κ] (lt : κ → κ → Bool)

theorem mem_keys_insertWith {merge : ν → ν → ν} {k j : κ} {v : ν} {xs : List (κ × ν)} :
    j ∈ (insertWith lt merge k v xs).map Prod.fst ↔ j = k ∨ j ∈ xs.map Prod.fst := by
  induction xs with
  | nil => simp [insertWith]
  | cons e rest ih =>
      obtain ⟨a, w⟩ := e
      simp only [insertWith]
      split
      · rename_i h
        subst h
        simp
      · split
        · simp
        · simp only [List.map_cons, List.mem_cons, ih]
          exact or_left_comm

theorem mem_insertWith_new {k : κ} {v : ν} {e : κ × ν} {xs : List (κ × ν)}
    (h : e ∈ insertWith lt (fun _ new => new) k v xs) : e = (k, v) ∨ e ∈ xs := by
  induction xs with
  | nil => exact .inl (List.mem_singleton.1 h)
  | cons a rest ih =>
      simp only [insertWith] at h
      split at h
      · rename_i hk
        rcases List.mem_cons.1 h with rfl | h
        · exact .inl (by rw [hk])
        · exact .inr (List.mem_cons_of_mem _ h)
      · split at h
        · exact List.mem_cons.1 h
        · rcases List.mem_cons.1 h with rfl | h
          · exact .inr List.mem_cons_self
          · exact (ih h).imp id (List.mem_cons_of_mem _)

/-- A pair that is put in finds its place. -/
theorem sorted_insertWith [IsStrictTotalOrder κ (lt · · = true)] {merge : ν → ν → ν} {k : κ}
    {v : ν} {xs : List (κ × ν)} (h : Sorted lt xs) : Sorted lt (insertWith lt merge k v xs) := by
  induction xs with
  | nil => simp [insertWith, Sorted]
  | cons e rest ih =>
      obtain ⟨a, w⟩ := e
      obtain ⟨hhead, hrest⟩ := List.pairwise_cons.1 h
      simp only [insertWith]
      split
      · exact List.pairwise_cons.2 ⟨hhead, hrest⟩
      · rename_i hne
        split
        · rename_i hlt
          refine List.pairwise_cons.2 ⟨?_, h⟩
          intro x hx
          rcases List.mem_cons.1 hx with rfl | hx
          · exact hlt
          · exact trans_of (lt · · = true) hlt (hhead x hx)
        · rename_i hlt
          have hak : lt a k = true := by
            rcases trichotomous_of (lt · · = true) a k with h | h | h
            · exact h
            · exact absurd h.symm hne
            · exact absurd h hlt
          refine List.pairwise_cons.2 ⟨?_, ih hrest⟩
          intro x hx
          have hkey := (mem_keys_insertWith lt).1 (List.mem_map_of_mem (f := Prod.fst) hx)
          rcases hkey with hk | hk
          · exact hk ▸ hak
          · obtain ⟨y, hy, hxy⟩ := List.mem_map.1 hk
            exact hxy ▸ hhead y hy

/-- The members of a list in order, each with the same value. -/
theorem sorted_ofList [IsStrictTotalOrder κ (lt · · = true)] (v : ν) (xs : List κ) :
    Sorted lt ((ofList lt xs).map (·, v)) := by
  have hinsert : ∀ (k : κ) (ys : List κ), (insert lt k ys).map (·, v) =
      insertWith lt (fun _ new => new) k v (ys.map (·, v)) := by
    intro k ys
    induction ys with
    | nil => rfl
    | cons a rest ih =>
        simp only [insert, List.map_cons, insertWith]
        split
        · rfl
        · split
          · rfl
          · rw [List.map_cons, ih]
  have hstep : ∀ ys : List κ, Sorted lt (ys.map (·, v)) → ∀ k ∈ xs,
      Sorted lt ((insert lt k ys).map (·, v)) := by
    intro ys hys k _
    rw [hinsert]
    exact sorted_insertWith lt hys
  exact List.foldlRecOn (motive := fun ys : List κ => Sorted lt (ys.map (·, v))) xs _
    List.Pairwise.nil hstep

/-- Lists with the same members are the same once they are put in order. -/
theorem ofList_eq_iff [IsStrictTotalOrder κ (lt · · = true)] {xs ys : List κ} :
    ofList lt xs = ofList lt ys ↔ ∀ k, k ∈ xs ↔ k ∈ ys := by
  constructor
  · intro h k
    rw [← mem_ofList lt, h, mem_ofList]
  · intro h
    have hsorted : ∀ zs : List κ, (ofList lt zs).Pairwise (lt · · = true) := fun zs =>
      List.pairwise_map.1 (sorted_ofList lt () zs)
    apply (hsorted xs).eq_of_mem_iff (hsorted ys)
    intro k
    rw [mem_ofList, mem_ofList, h]

/-- A pair that is put in twice is put in once. -/
theorem insertWith_insertWith_new (k : κ) (v w : ν) (xs : List (κ × ν)) :
    insertWith lt (fun _ new => new) k w (insertWith lt (fun _ new => new) k v xs) =
      insertWith lt (fun _ new => new) k w xs := by
  induction xs with
  | nil => simp [insertWith]
  | cons e rest ih =>
      obtain ⟨a, u⟩ := e
      by_cases hk : k = a
      · simp [insertWith, hk]
      · by_cases hlt : lt k a = true
        · simp [insertWith, hk, hlt]
        · simp [insertWith, hk, hlt, ih]

/-- A pair that is there already changes nothing. -/
theorem insertWith_new_self [BEq κ] [LawfulBEq κ] [IsStrictTotalOrder κ (lt · · = true)] {k : κ}
    {v : ν} {xs : List (κ × ν)} (h : Sorted lt xs) (hv : xs.lookup k = some v) :
    insertWith lt (fun _ new => new) k v xs = xs := by
  induction xs with
  | nil => cases hv
  | cons e rest ih =>
      obtain ⟨a, u⟩ := e
      obtain ⟨hhead, hrest⟩ := List.pairwise_cons.1 h
      by_cases hk : k = a
      · have hu : u = v := by simpa [hk] using hv
        simp [insertWith, hk, hu]
      · have hb : (k == a) = false := by simpa using hk
        rw [List.lookup_cons, hb] at hv
        have hak : lt a k = true := hhead (k, v) (mem_of_lookup hv)
        have hka : ¬lt k a = true := fun hka => asymm_of (lt · · = true) hka hak
        simp only [insertWith, if_neg hk, if_neg hka, ih hrest hv]

/-- The pairs of other keys stay. -/
theorem filter_insertWith_new (merge : ν → ν → ν) (k : κ) (v : ν) (xs : List (κ × ν)) :
    (insertWith lt merge k v xs).filter (·.1 != k) = xs.filter (·.1 != k) := by
  induction xs with
  | nil => simp [insertWith]
  | cons x rest ih =>
      obtain ⟨a, w⟩ := x
      simp only [insertWith]
      split
      · rename_i hk
        simp [hk]
      · split
        · simp
        · simp only [List.filter_cons, ih]

/-- A pair that is put in is merged with what was there under its key. -/
theorem lookup_insertWith_sorted [BEq κ] [LawfulBEq κ] [IsStrictTotalOrder κ (lt · · = true)]
    (merge : ν → ν → ν) (k j : κ) (v : ν) {xs : List (κ × ν)} (h : Sorted lt xs) :
    (insertWith lt merge k v xs).lookup j =
      if j = k then some ((xs.lookup k).elim v (merge · v)) else xs.lookup j := by
  induction xs with
  | nil =>
      by_cases hj : j = k
      · simp [insertWith, hj]
      · have hb : (j == k) = false := by simpa using hj
        simp [insertWith, List.lookup_cons, hj, hb]
  | cons e rest ih =>
      obtain ⟨a, w⟩ := e
      obtain ⟨hhead, hrest⟩ := List.pairwise_cons.1 h
      simp only [insertWith]
      split
      · rename_i hka
        subst hka
        by_cases hj : j = k
        · simp [hj]
        · have hb : (j == k) = false := by simpa using hj
          simp [List.lookup_cons, hj, hb]
      · rename_i hka
        have hbk : (k == a) = false := by simpa using hka
        split
        · rename_i hlt
          have hnone : rest.lookup k = none :=
            lookup_eq_none_of_lt fun x hx => trans_of (lt · · = true) hlt (hhead x hx)
          by_cases hj : j = k
          · simp [hj, List.lookup_cons, hbk, hnone]
          · have hb : (j == k) = false := by simpa using hj
            simp [List.lookup_cons, hj, hb]
        · by_cases hj : j = a
          · subst hj
            have hne : ¬j = k := fun he => hka he.symm
            simp [hne]
          · have hb : (j == a) = false := by simpa using hj
            simp [List.lookup_cons, hb, hbk, ih hrest]

end Order

end Ordered

section Orders

/-- The order of worker numbers. -/
instance natStrictTotalOrder : IsStrictTotalOrder Nat (fun a b => decide (a < b) = true) where
  irrefl a := by simp
  trans a b c hab hbc := by
    rw [decide_eq_true_eq] at hab hbc ⊢
    exact Nat.lt_trans hab hbc
  trichotomous a b hab hba := by
    rw [decide_eq_true_eq, Nat.not_lt] at hab hba
    exact Nat.le_antisymm hba hab

/-- The order of row numbers. -/
instance : IsStrictTotalOrder RowKey (fun a b => decide (a < b) = true) where
  irrefl a := by simp
  trans a b c hab hbc := by
    rw [decide_eq_true_eq] at hab hbc ⊢
    exact UInt64.lt_trans hab hbc
  trichotomous a b hab hba := by
    rw [decide_eq_true_eq, UInt64.not_lt] at hab hba
    exact UInt64.le_antisymm hba hab

/-- The order of texts. -/
instance : IsStrictTotalOrder String (textLt · · = true) where
  irrefl a := by simp [textLt]
  trans a b c hab hbc := by
    simp only [textLt, decide_eq_true_eq] at hab hbc ⊢
    exact lt_trans hab hbc
  trichotomous a b hab hba := by
    simp only [textLt, decide_eq_true_eq, not_lt] at hab hba
    exact le_antisymm hba hab

theorem placeLt_iff {a b : Place} :
    placeLt a b = true ↔ a.1 < b.1 ∨ (a.1 = b.1 ∧ a.2 < b.2) := by
  simp [placeLt, textLt]

/-- The order of rows. -/
instance : IsStrictTotalOrder Place (placeLt · · = true) where
  irrefl a := by simp [placeLt_iff, UInt64.lt_irrefl]
  trans a b c hab hbc := by
    rw [placeLt_iff] at hab hbc ⊢
    rcases hab with hab | ⟨hab, hab'⟩
    · rcases hbc with hbc | ⟨hbc, -⟩
      · exact .inl (lt_trans hab hbc)
      · exact .inl (hbc ▸ hab)
    · rcases hbc with hbc | ⟨hbc, hbc'⟩
      · exact .inl (hab ▸ hbc)
      · exact .inr ⟨hab.trans hbc, UInt64.lt_trans hab' hbc'⟩
  trichotomous a b hab hba := by
    rw [placeLt_iff, not_or, not_and] at hab hba
    have hrel : a.1 = b.1 := le_antisymm (not_lt.1 hba.1) (not_lt.1 hab.1)
    have hkey : a.2 = b.2 :=
      UInt64.le_antisymm (UInt64.not_lt.1 (hba.2 hrel.symm)) (UInt64.not_lt.1 (hab.2 hrel))
    exact Prod.ext hrel hkey

end Orders

end LiveIsolation
