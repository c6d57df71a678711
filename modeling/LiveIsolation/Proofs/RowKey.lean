import LiveIsolation.Proofs.Store
import LiveIsolation.Proofs.Value

/-!
# Equal columns and the numbers of rows

A number that is compared is written to the hasher by its bits. So equal columns are written alike,
and give one row, unless zeros of opposite signs meet in a column; then they are written
differently, and give two rows unless the hasher happens to send both to one number. This is so
for every hasher (`RowKey.equal_columns_one_row`).

## Implementation notes

The hasher of machine words puts each word in by a step that can be undone for a known word. Two
of its states that have become different therefore stay so while the same words go in, and it tells
apart what differs in a single word (`WordHash.hasher_ne`).
-/

namespace LiveIsolation

namespace WordHash

variable {h k : WordHash}

/-- A rotation loses no bit. -/
theorem rotateLeft_inj {x y : UInt64} (h : rotateLeft x 5 = rotateLeft y 5) : x = y := by
  have hrotated : x.toBitVec.rotateLeft 5 = y.toBitVec.rotateLeft 5 :=
    congrArg UInt64.toBitVec h
  refine UInt64.eq_of_toBitVec_eq (BitVec.eq_of_getLsbD_eq fun i hi => ?_)
  -- the bit is found five places higher, or again from the lowest place on
  by_cases hlow : i + 5 < 64
  · have hbit := congrArg (fun v : BitVec 64 => v.getLsbD (i + 5)) hrotated
    simpa [BitVec.getLsbD_rotateLeft, hlow, BitVec.getLsbD_eq_getElem hi] using hbit
  · have hbit := congrArg (fun v : BitVec 64 => v.getLsbD (i - 59)) hrotated
    have hplace : i - 59 < 5 ∧ 59 + (i - 59) = i := by omega
    simpa [BitVec.getLsbD_rotateLeft, hplace] using hbit

/-- The multiplier is odd, so that a multiplication by it can be undone. -/
theorem mul_multiplier_inj {x y : UInt64} (h : x * multiplier = y * multiplier) : x = y := by
  have hinverse : multiplier * 0x2040003d780970bd = 1 := by decide
  calc x = x * multiplier * 0x2040003d780970bd := by rw [UInt64.mul_assoc, hinverse, UInt64.mul_one]
    _ = y * multiplier * 0x2040003d780970bd := by rw [h]
    _ = y := by rw [UInt64.mul_assoc, hinverse, UInt64.mul_one]

/-- Two words put into one hash, or one word put into two hashes, are told apart. -/
theorem word_eq_word {v w : UInt64} (heq : h.word v = k.word w) : h = k ↔ v = w := by
  have hmixed : rotateLeft h.state 5 ^^^ v = rotateLeft k.state 5 ^^^ w :=
    mul_multiplier_inj (congrArg WordHash.state heq)
  constructor
  · rintro rfl
    exact (UInt64.xor_right_inj _).1 hmixed
  · rintro rfl
    have hstate := rotateLeft_inj ((UInt64.xor_left_inj _).1 hmixed)
    obtain ⟨s⟩ := h
    obtain ⟨t⟩ := k
    exact congrArg WordHash.mk hstate

theorem word_inj {w : UInt64} (heq : h.word w = k.word w) : h = k := (word_eq_word heq).2 rfl

/-- Words that are put into two hashes do not make them the same. -/
theorem foldl_word_inj {ws : List UInt64} (heq : ws.foldl word h = ws.foldl word k) : h = k := by
  induction ws generalizing h k with
  | nil => exact heq
  | cons w rest ih => exact word_inj (ih heq)

/-- The words as which bytes go in do not depend on what has gone in before. -/
theorem exists_words_bytes (bs : List UInt8) :
    ∃ ws : List UInt64, ∀ h : WordHash, h.bytes bs = ws.foldl word h := by
  by_cases hlong : 8 ≤ bs.length
  · obtain ⟨ws, hws⟩ := exists_words_bytes (bs.drop 8)
    refine ⟨littleEndian (bs.take 8) :: ws, fun h => ?_⟩
    rw [bytes, if_pos hlong, hws, List.foldl_cons]
  · have hsome : ∀ (n : Nat) (bs : List UInt8), ∃ (ws : List UInt64) (rest : List UInt8),
        ∀ h : WordHash, (if n ≤ bs.length then (h.word (littleEndian (bs.take n)), bs.drop n)
          else (h, bs)) = (ws.foldl word h, rest) := by
      intro n bs
      by_cases hn : n ≤ bs.length
      · exact ⟨[littleEndian (bs.take n)], bs.drop n, fun h => if_pos hn⟩
      · exact ⟨[], bs, fun h => if_neg hn⟩
    obtain ⟨four, rest, hfour⟩ := hsome 4 bs
    obtain ⟨two, last, htwo⟩ := hsome 2 rest
    cases last with
    | nil =>
        refine ⟨four ++ two, fun h => ?_⟩
        rw [bytes, if_neg hlong, hfour, List.foldl_append]
        simp only [htwo]
    | cons b tail =>
        refine ⟨four ++ two ++ [b.toUInt64], fun h => ?_⟩
        rw [bytes, if_neg hlong, hfour, List.foldl_append, List.foldl_append]
        simp only [htwo, List.foldl_cons, List.foldl_nil]
termination_by bs.length
decreasing_by simp; omega

/-- All that is written goes in as words that do not depend on what has gone in before. -/
theorem exists_words (inputs : List HashInput) :
    ∃ ws : List UInt64, ∀ h : WordHash, inputs.foldl write h = ws.foldl word h := by
  induction inputs with
  | nil => exact ⟨[], fun _ => rfl⟩
  | cons input rest ih =>
      obtain ⟨later, hlater⟩ := ih
      obtain ⟨first, hfirst⟩ : ∃ ws : List UInt64, ∀ h : WordHash,
          h.write input = ws.foldl word h := by
        cases input with
        | u8 b => exact ⟨[b.toUInt64], fun _ => rfl⟩
        | u64 w => exact ⟨[w], fun _ => rfl⟩
        | i64 n => exact ⟨[n.toUInt64], fun _ => rfl⟩
        | usize n => exact ⟨[UInt64.ofNat n], fun _ => rfl⟩
        | bytes bs => exact exists_words_bytes bs
      refine ⟨first ++ later, fun h => ?_⟩
      rw [List.foldl_cons, hfirst, hlater, List.foldl_append]

/-- What differs in one word is told apart. -/
theorem hasher_ne {v w : UInt64} (hne : v ≠ w) (before after : List HashInput) :
    hasher (before ++ .u64 v :: after) ≠ hasher (before ++ .u64 w :: after) := by
  intro heq
  obtain ⟨ws, hws⟩ := exists_words after
  have hstate : ∀ {g k : WordHash}, g.state = k.state → g = k := by
    rintro ⟨s⟩ ⟨t⟩ hst
    exact congrArg WordHash.mk hst
  have hfold := hstate heq
  rw [List.foldl_append, List.foldl_append, List.foldl_cons, List.foldl_cons, hws, hws] at hfold
  exact hne ((word_eq_word (foldl_word_inj hfold)).1 rfl)

end WordHash

/-- The two zeros are written differently. -/
theorem Value.Opposite.hashed_append_ne {u v : Value} (h : u.Opposite v) (name name' : String)
    (as bs : List HashInput) : .text name :: u.hashed ++ as ≠ .text name' :: v.hashed ++ bs := by
  rcases h with ⟨rfl, rfl⟩ | ⟨rfl, rfl⟩
  · simp [Value.hashed, Value.bits_zero_ne]
  · simp [Value.hashed, Value.bits_zero_ne.symm]

namespace Columns

/-- The columns have the same names in the same order, and equal values. -/
def Same (a b : Columns) : Prop :=
  List.Forall₂ (fun x y : String × Value => x.1 = y.1 ∧ x.2.same y.2 = true) a b

/-- The number of columns in which zeros of opposite signs meet. -/
def opposed (a b : Columns) : Nat := (a.zip b).countP fun x => decide (x.1.2.Opposite x.2.2)

variable {a b : Columns}

theorem opposed_cons (x y : String × Value) (a b : Columns) :
    opposed (x :: a) (y :: b) = opposed a b + if x.2.Opposite y.2 then 1 else 0 := by
  simp only [opposed, List.zip_cons_cons, List.countP_cons, decide_eq_true_eq]

/-- Where no zeros of opposite signs meet, equal columns are the same. -/
theorem Same.eq_of_opposed (h : Same a b) (hopposed : opposed a b = 0) : a = b := by
  induction h with
  | nil => rfl
  | @cons x y a b hxy _ ih =>
      rw [opposed_cons] at hopposed
      split at hopposed
      · cases hopposed
      · rename_i hne
        obtain ⟨hname, hsame⟩ := hxy
        have hvalue : x.2 = y.2 :=
          (Value.eq_or_opposite_of_same hsame).resolve_right hne
        rw [Prod.ext hname hvalue, ih hopposed]

/-- Equal columns that are written alike are the same. -/
theorem Same.eq_of_hashed (h : Same a b) (hhashed : hashed a = hashed b) : a = b := by
  induction h with
  | nil => rfl
  | @cons x y a b hxy _ ih =>
      obtain ⟨hname, hsame⟩ := hxy
      have hsplit : .text x.1 :: x.2.hashed ++ hashed a = .text y.1 :: y.2.hashed ++ hashed b :=
        hhashed
      rcases Value.eq_or_opposite_of_same hsame with hvalue | hopposite
      · rw [hname, hvalue] at hsplit
        rw [Prod.ext hname hvalue, ih (List.append_cancel_left hsplit)]
      · exact absurd hsplit (hopposite.hashed_append_ne _ _ _ _)

/-- Where zeros of opposite signs meet, the columns are not the same. -/
theorem opposed_self (a : Columns) : opposed a a = 0 := by
  induction a with
  | nil => rfl
  | cons x rest ih => rw [opposed_cons, ih, if_neg x.2.not_opposite_self]

/-- A column with one of the two zeros. -/
theorem exists_float_of_opposed (hopposed : opposed a b ≠ 0) :
    (∃ name bits, (name, .float bits) ∈ a) ∧ ∃ name bits, (name, .float bits) ∈ b := by
  obtain ⟨⟨x, y⟩, hmem, hopposite⟩ := List.countP_pos_iff.1 (Nat.pos_of_ne_zero hopposed)
  obtain ⟨ha, hb⟩ := List.of_mem_zip hmem
  obtain ⟨name, u⟩ := x
  obtain ⟨name', v⟩ := y
  rcases of_decide_eq_true hopposite with ⟨rfl, rfl⟩ | ⟨rfl, rfl⟩
  · exact ⟨⟨name, _, ha⟩, name', _, hb⟩
  · exact ⟨⟨name, _, ha⟩, name', _, hb⟩

end Columns

namespace RowKey

variable {a b : Columns}

/-- A row that a number with a fraction takes part in numbering is numbered by its hash. -/
theorem derive_eq_ofColumns (hash : Hasher) (relation : String) {columns : Columns} {name : String}
    {bits : UInt64} (h : (name, .float bits) ∈ columns) :
    derive hash relation columns = hash columns.hashed := by
  rcases columns with - | ⟨⟨column, v⟩, - | ⟨c, rest⟩⟩
  · cases h
  · obtain ⟨-, rfl⟩ := Prod.mk.inj (List.mem_singleton.1 h)
    rfl
  · cases v <;> rfl

/-- Equal columns give one row where no zeros of opposite signs meet, and statements that bind
their arguments to such columns touch that row. Where zeros of opposite signs meet, the columns are
written to the hasher differently, and they give one row only if it sends both to one number. -/
theorem equal_columns_one_row (hash : Hasher) (h : Columns.Same a b) :
    (Columns.opposed a b = 0 →
      (∀ relation, derive hash relation a = derive hash relation b) ∧
      ∀ (store : Store) (s t : Statement) (xs ys : List Value), store.keys = hashed hash →
        s.relation = t.relation → s.resolve xs = .ok a → t.resolve ys = .ok b →
        ∃ p, store.placeOf s xs = .ok p ∧ store.placeOf t ys = .ok p) ∧
    (Columns.opposed a b ≠ 0 →
      a.hashed ≠ b.hashed ∧
      ∀ relation, derive hash relation a = derive hash relation b ↔
        hash a.hashed = hash b.hashed) := by
  constructor
  · intro hnone
    obtain rfl := h.eq_of_opposed hnone
    refine ⟨fun _ => rfl, ?_⟩
    intro store s t xs ys hkeys hrelation hs ht
    have htotal : store.keys.Total := hkeys ▸ total_hashed hash
    refine ⟨_, Store.placeOf_eq htotal hs, ?_⟩
    rw [Store.placeOf_eq htotal ht, hrelation]
  · intro hsome
    obtain ⟨⟨name, bits, ha⟩, name', bits', hb⟩ := Columns.exists_float_of_opposed hsome
    refine ⟨?_, ?_⟩
    · intro hhashed
      obtain rfl := h.eq_of_hashed hhashed
      exact hsome (Columns.opposed_self a)
    · intro relation
      rw [derive_eq_ofColumns hash relation ha, derive_eq_ofColumns hash relation hb]

/-- A zero in one of two columns has its sign changed, and the hasher of machine words notices. -/
theorem district_rows_differ :
    Columns.Same [("d", .zero), ("w", .int 1)] [("d", .negativeZero), ("w", .int 1)] ∧
      derive WordHash.hasher "district" [("d", .zero), ("w", .int 1)] ≠
        derive WordHash.hasher "district" [("d", .negativeZero), ("w", .int 1)] := by
  have hsame :
      Columns.Same [("d", .zero), ("w", .int 1)] [("d", .negativeZero), ("w", .int 1)] :=
    .cons ⟨rfl, by decide⟩ (.cons ⟨rfl, by decide⟩ .nil)
  obtain ⟨-, hrows⟩ := (equal_columns_one_row WordHash.hasher hsame).2 (by decide)
  refine ⟨hsame, fun heq => ?_⟩
  exact WordHash.hasher_ne Value.bits_zero_ne [.text "d", .u8 3] [.text "w", .u8 2, .i64 1]
    ((hrows "district").1 heq)

/-- The two zeros are equal and give two rows. -/
theorem zeros_give_two_rows :
    Value.zero.same .negativeZero = true ∧
      derive WordHash.hasher "x" [("id", .zero)] ≠
        derive WordHash.hasher "x" [("id", .negativeZero)] :=
  ⟨by decide, WordHash.hasher_ne Value.bits_zero_ne [.text "id", .u8 3] []⟩

end RowKey

end LiveIsolation
