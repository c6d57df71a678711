import LiveIsolation.ConflictGraph.Build
import LiveIsolation.Transaction
import Mathlib.Data.List.Basic

/-!
# Conflicts of statements

Two statements of different templates conflict if they touch one relation, analysis does not skip
them, and at least one of them writes; a read of a row that its own template also writes takes
part in no conflict (`Transaction.Exposes`). The edges of the graph of a workload are these
conflicts, in both directions (`mem_build_edges`). Names play no part in this, although dominated
conflicts are removed by name: in one pair of templates the name of a conflict tells its
statements (`conflictName_eq_iff`).
-/

namespace LiveIsolation

namespace Transaction

/-- The template writes the row that a statement addresses. -/
def Covers (t : Transaction) (s : Statement) : Prop :=
  ∃ w ∈ t.statements, w.kind.isWrite = true ∧ w.skipped = false ∧
    ConflictGraph.sameRow w s = true

/-- A statement of the template takes part in conflicts: it is not skipped, and if it reads, then
not a row that the template also writes. -/
def Exposes (t : Transaction) (s : Statement) : Prop :=
  s.skipped = false ∧ ¬(s.kind.isWrite = false ∧ t.Covers s)

end Transaction

namespace ConflictGraph

section Names

/-- Two texts around a separator and two others give one text if the separators stand at one
place, or if each has the separator of the other inside. -/
theorem append_cons_eq_append_cons_iff {α : Type} {xs ys zs ws : List α} {sep : α} :
    xs ++ sep :: ys = zs ++ sep :: ws ↔ (xs = zs ∧ ys = ws) ∨
      (∃ mid, zs = xs ++ sep :: mid ∧ ys = mid ++ sep :: ws) ∨
      ∃ mid, xs = zs ++ sep :: mid ∧ ws = mid ++ sep :: ys := by
  constructor
  · intro h
    rcases List.append_eq_append_iff.1 h with ⟨mid, hzs, hys⟩ | ⟨mid, hxs, hws⟩
    · cases mid with
      | nil => exact .inl ⟨by rw [hzs, List.append_nil], (List.cons.inj hys).2⟩
      | cons c mid =>
          rw [List.cons_append, List.cons.injEq] at hys
          obtain ⟨rfl, hys⟩ := hys
          exact .inr (.inl ⟨mid, hzs, hys⟩)
    · cases mid with
      | nil => exact .inl ⟨by rw [hxs, List.append_nil], (List.cons.inj hws).2.symm⟩
      | cons c mid =>
          rw [List.cons_append, List.cons.injEq] at hws
          obtain ⟨rfl, hws⟩ := hws
          exact .inr (.inr ⟨mid, hxs, hws⟩)
  · rintro (⟨rfl, rfl⟩ | ⟨mid, rfl, rfl⟩ | ⟨mid, rfl, rfl⟩)
    · rfl
    · rw [List.append_assoc, List.cons_append]
    · rw [List.append_assoc, List.cons_append]

/-- A separator splits a text at its last place in one way only. -/
theorem append_sep_inj {xs ys ds es : List Char} {sep : Char} (hd : sep ∉ ds) (he : sep ∉ es) :
    xs ++ sep :: ds = ys ++ sep :: es ↔ xs = ys ∧ ds = es := by
  rw [append_cons_eq_append_cons_iff]
  apply or_iff_left
  rintro (⟨mid, -, rfl⟩ | ⟨mid, -, rfl⟩)
  · exact hd (List.mem_append_right mid List.mem_cons_self)
  · exact he (List.mem_append_right mid List.mem_cons_self)

theorem toList_toString (n : Nat) : (toString n).toList = Nat.toDigits 10 n := by
  rw [Nat.toString_eq_repr, Nat.toList_repr]

theorem dash_notMem_toString (n : Nat) : '-' ∉ (toString n).toList := by
  intro h
  rw [toList_toString] at h
  have hdigit := Nat.isDigit_of_mem_toDigits (by decide) (by decide) h
  exact absurd hdigit (by decide)

/-- A number behind a dash can be told from what stands before it. -/
theorem append_dash_toString_inj {s t : String} {i j : Nat} :
    s ++ "-" ++ toString i = t ++ "-" ++ toString j ↔ s = t ∧ i = j := by
  rw [String.ext_iff]
  simp only [String.toList_append, List.append_assoc]
  change s.toList ++ '-' :: (toString i).toList = t.toList ++ '-' :: (toString j).toList ↔ _
  rw [append_sep_inj (dash_notMem_toString i) (dash_notMem_toString j), ← String.ext_iff,
    toList_toString, toList_toString]
  apply and_congr_right'
  constructor
  · intro h
    rw [← Nat.ofDigitChars_ten_toDigits (n := i), h, Nat.ofDigitChars_ten_toDigits]
  · rintro rfl
    rfl

/-- The name of a conflict tells the places of its statements. -/
theorem conflictName_eq_iff {first second first' second' : String} {i j i' j' : Nat} :
    conflictName first second i j = conflictName first' second' i' j' ↔
      first ++ "-" ++ second = first' ++ "-" ++ second' ∧ i = i' ∧ j = j' := by
  rw [conflictName, conflictName, append_dash_toString_inj, append_dash_toString_inj, and_assoc]

end Names

/-- The kind of an edge between two statements of which at least one writes. -/
def kindOf (a b : Statement) : EdgeKind :=
  match a.kind.isWrite, b.kind.isWrite with
  | false, _ => .readWrite
  | true, false => .writeRead
  | true, true => .writeWrite

theorem kindOf_eq_readWrite_iff {a b : Statement} :
    kindOf a b = .readWrite ↔ a.kind.isWrite = false := by
  rw [kindOf]
  cases a.kind.isWrite <;> cases b.kind.isWrite <;> simp

theorem kindOf_eq_writeWrite_iff {a b : Statement} :
    kindOf a b = .writeWrite ↔ a.kind.isWrite = true ∧ b.kind.isWrite = true := by
  rw [kindOf]
  cases a.kind.isWrite <;> cases b.kind.isWrite <;> simp

/-- The edge from a statement of one template to a statement of another. -/
def edgeFrom (t u : Transaction) (name : String) (i j : Nat) (a b : Statement) : Edge :=
  ⟨t.id, u.id, kindOf a b, name, i, j⟩

section Pair

variable {first second t u : Transaction} {i j k l : Nat} {a b : Statement} {e : Edge}
  {name : String}

/-- Two statements touch one relation, are not skipped, and at least one of them writes. -/
structure Meet (a b : Statement) : Prop where
  source : a.skipped = false
  target : b.skipped = false
  relation : a.relation = b.relation
  writes : a.kind.isWrite = true ∨ b.kind.isWrite = true

theorem Meet.symm (h : Meet a b) : Meet b a :=
  ⟨h.target, h.source, h.relation.symm, h.writes.symm⟩

theorem mem_statementEdges :
    e ∈ statementEdges first second i j a b ↔ Meet a b ∧
      (e = edgeFrom first second (conflictName first.name second.name i j) i j a b ∨
        e = edgeFrom second first (conflictName first.name second.name i j) j i b a) := by
  have hmeet : Meet a b ↔ (a.skipped || b.skipped || a.relation != b.relation) = false ∧
      (a.kind.isWrite = true ∨ b.kind.isWrite = true) := by
    simp only [Bool.or_eq_false_iff, bne_eq_false_iff_eq]
    constructor
    · rintro ⟨ha, hb, hrelation, hwrites⟩
      exact ⟨⟨⟨ha, hb⟩, hrelation⟩, hwrites⟩
    · rintro ⟨⟨⟨ha, hb⟩, hrelation⟩, hwrites⟩
      exact ⟨ha, hb, hrelation, hwrites⟩
  rw [hmeet, statementEdges]
  cases a.skipped || b.skipped || a.relation != b.relation with
  | true => simp
  | false =>
      simp only [edgeFrom, kindOf]
      cases a.kind.isWrite <;> cases b.kind.isWrite <;> simp
      exact or_comm

theorem mem_pairEdges :
    e ∈ pairEdges first second ↔ ∃ (i j : Nat) (a b : Statement),
      first.statements[i]? = some a ∧ second.statements[j]? = some b ∧ Meet a b ∧
      (e = edgeFrom first second (conflictName first.name second.name i j) i j a b ∨
        e = edgeFrom second first (conflictName first.name second.name i j) j i b a) := by
  simp only [pairEdges, List.mem_flatMap, Prod.exists, List.mem_zipIdx_iff_getElem?,
    mem_statementEdges]
  constructor
  · rintro ⟨a, i, ha, b, j, hb, he⟩
    exact ⟨i, j, a, b, ha, hb, he⟩
  · rintro ⟨i, j, a, b, ha, hb, he⟩
    exact ⟨a, i, ha, b, j, hb, he⟩

/-- Two templates of a pair in one order or the other, and the name that the pair gives to the
conflict of statement `i` of the one and statement `j` of the other. -/
inductive Oriented (first second : Transaction) :
    Transaction → Transaction → Nat → Nat → String → Prop where
  | forward (i j : Nat) :
    Oriented first second first second i j (conflictName first.name second.name i j)
  | backward (i j : Nat) :
    Oriented first second second first j i (conflictName first.name second.name i j)

theorem Oriented.symm (h : Oriented first second t u i j name) :
    Oriented first second u t j i name := by
  cases h with
  | forward => exact .backward _ _
  | backward => exact .forward _ _

/-- The edges of a pair, said for both orders at once. -/
theorem mem_pairEdges_iff :
    e ∈ pairEdges first second ↔ ∃ (t u : Transaction) (i j : Nat) (name : String)
      (a b : Statement), Oriented first second t u i j name ∧ t.statements[i]? = some a ∧
      u.statements[j]? = some b ∧ Meet a b ∧ e = edgeFrom t u name i j a b := by
  rw [mem_pairEdges]
  constructor
  · rintro ⟨i, j, a, b, ha, hb, hmeet, rfl | rfl⟩
    · exact ⟨first, second, i, j, _, a, b, .forward i j, ha, hb, hmeet, rfl⟩
    · exact ⟨second, first, j, i, _, b, a, .backward i j, hb, ha, hmeet.symm, rfl⟩
  · rintro ⟨t, u, i, j, name, a, b, horiented, ha, hb, hmeet, rfl⟩
    cases horiented with
    | forward => exact ⟨_, _, a, b, ha, hb, hmeet, .inl rfl⟩
    | backward => exact ⟨_, _, b, a, hb, ha, hmeet.symm, .inr rfl⟩

/-- A name is that of one conflict, in one direction or the other. -/
theorem Oriented.eq_or_symm {t' u' : Transaction} (h : Oriented first second t u i j name)
    (h' : Oriented first second t' u' k l name) :
    (t' = t ∧ u' = u ∧ k = i ∧ l = j) ∨ (t' = u ∧ u' = t ∧ k = j ∧ l = i) := by
  generalize hname : name = other at h'
  cases h with
  | forward i j =>
      cases h' with
      | forward k l =>
          obtain ⟨-, rfl, rfl⟩ := conflictName_eq_iff.1 hname
          exact .inl ⟨rfl, rfl, rfl, rfl⟩
      | backward k l =>
          obtain ⟨-, rfl, rfl⟩ := conflictName_eq_iff.1 hname
          exact .inr ⟨rfl, rfl, rfl, rfl⟩
  | backward i j =>
      cases h' with
      | forward k l =>
          obtain ⟨-, rfl, rfl⟩ := conflictName_eq_iff.1 hname
          exact .inr ⟨rfl, rfl, rfl, rfl⟩
      | backward k l =>
          obtain ⟨-, rfl, rfl⟩ := conflictName_eq_iff.1 hname
          exact .inl ⟨rfl, rfl, rfl, rfl⟩

theorem Oriented.statementAt?_eq (h : Oriented first second t u i j name)
    (hne : first.id ≠ second.id) (place : Nat) :
    statementAt? first second t.id place = t.statements[place]? := by
  cases h with
  | forward => rw [statementAt?, if_pos rfl]
  | backward => rw [statementAt?, if_neg hne.symm]

/-- The numbers of templates tell them apart. -/
theorem Oriented.eq_of_id {t' u' : Transaction} {other : String}
    (h : Oriented first second t u i j name) (h' : Oriented first second t' u' k l other)
    (hne : first.id ≠ second.id) (hid : t'.id = t.id) : t' = t ∧ u' = u := by
  cases h with
  | forward =>
      cases h' with
      | forward => exact ⟨rfl, rfl⟩
      | backward => exact absurd hid.symm hne
  | backward =>
      cases h' with
      | forward => exact absurd hid hne
      | backward => exact ⟨rfl, rfl⟩

theorem Oriented.exists_name (h : Oriented first second t u i j name) (k l : Nat) :
    ∃ other, Oriented first second t u k l other := by
  cases h with
  | forward => exact ⟨_, .forward k l⟩
  | backward => exact ⟨_, .backward l k⟩

/-- What makes an edge dominated. -/
theorem dominated_eq_true {edges : List Edge} :
    dominated first second edges e = true ↔
      e.kind = .readWrite ∧ ∃ reader,
        statementAt? first second e.source e.sourceIndex = some reader ∧ ∃ w ∈ edges,
          w.kind = .writeWrite ∧ w.source = e.source ∧ w.target = e.target ∧
          w.targetIndex = e.targetIndex ∧ ∃ writer,
            statementAt? first second w.source w.sourceIndex = some writer ∧
              sameRow writer reader = true := by
  rw [dominated]
  split
  · rename_i reader hkind hreader
    rw [hkind, hreader, List.any_eq_true]
    simp only [Bool.and_eq_true, beq_iff_eq, Option.some.injEq, true_and, exists_eq_left']
    apply exists_congr
    intro w
    cases statementAt? first second w.source w.sourceIndex with
    | none => simp
    | some writer => simp [and_assoc]
  · rename_i hnot
    constructor
    · intro h
      cases h
    · rintro ⟨hkind, reader, hreader, -⟩
      exact absurd hreader (hnot reader hkind)

/-- An edge is dominated if it comes from a read of a row that the same template writes. -/
theorem dominated_iff (h : Oriented first second t u i j name) (hne : first.id ≠ second.id)
    (ha : t.statements[i]? = some a) (hb : u.statements[j]? = some b) (hmeet : Meet a b) :
    dominated first second (pairEdges first second) (edgeFrom t u name i j a b) = true ↔
      a.kind.isWrite = false ∧ t.Covers a := by
  have hreader : statementAt? first second t.id i = some a := (h.statementAt?_eq hne i).trans ha
  rw [dominated_eq_true, show (edgeFrom t u name i j a b).kind = kindOf a b from rfl,
    kindOf_eq_readWrite_iff]
  apply and_congr_right
  intro hread
  constructor
  · rintro ⟨reader, hreader', w, hw, hkind, hsource, -, -, writer, hwriter, hrow⟩
    obtain rfl : a = reader := Option.some.inj (hreader.symm.trans hreader')
    obtain ⟨t', u', k, l, other, a', b', h', ha', -, hmeet', rfl⟩ := mem_pairEdges_iff.1 hw
    obtain ⟨rfl, rfl⟩ := h.eq_of_id h' hne hsource
    obtain rfl : writer = a' :=
      Option.some.inj (hwriter.symm.trans ((h'.statementAt?_eq hne k).trans ha'))
    exact ⟨writer, List.mem_of_getElem? ha', (kindOf_eq_writeWrite_iff.1 hkind).1,
      hmeet'.source, hrow⟩
  · rintro ⟨w, hw, hwrite, hskipped, hrow⟩
    obtain ⟨k, hk⟩ := List.mem_iff_getElem?.1 hw
    obtain ⟨other, h'⟩ := h.exists_name k j
    have hrelation : w.relation = a.relation := by
      rw [sameRow, Bool.and_eq_true, beq_iff_eq] at hrow
      exact hrow.1
    have hwrites : b.kind.isWrite = true := by
      rcases hmeet.writes with hwritesA | hwritesB
      · rw [hread] at hwritesA
        cases hwritesA
      · exact hwritesB
    have hmeet' : Meet w b :=
      ⟨hskipped, hmeet.target, hrelation.trans hmeet.relation, .inl hwrite⟩
    exact ⟨a, hreader, edgeFrom t u other k j w b,
      mem_pairEdges_iff.2 ⟨t, u, k, j, other, w, b, h', hk, hb, hmeet', rfl⟩,
      kindOf_eq_writeWrite_iff.2 ⟨hwrite, hwrites⟩, rfl, rfl, rfl, w,
      (h'.statementAt?_eq hne k).trans hk, hrow⟩

/-- The name of a conflict is among those of dominated edges if either of its statements reads a
row that its own template writes. -/
theorem mem_dominated_names (h : Oriented first second t u i j name) (hne : first.id ≠ second.id)
    (ha : t.statements[i]? = some a) (hb : u.statements[j]? = some b) (hmeet : Meet a b) :
    name ∈ ((pairEdges first second).filter
        (dominated first second (pairEdges first second))).map Edge.name ↔
      (a.kind.isWrite = false ∧ t.Covers a) ∨ (b.kind.isWrite = false ∧ u.Covers b) := by
  rw [List.mem_map]
  constructor
  · rintro ⟨f, hf, hname⟩
    obtain ⟨hf, hdominated⟩ := List.mem_filter.1 hf
    obtain ⟨t', u', k, l, other, a', b', h', ha', hb', hmeet', rfl⟩ := mem_pairEdges_iff.1 hf
    obtain rfl : other = name := hname
    rw [dominated_iff h' hne ha' hb' hmeet'] at hdominated
    rcases h.eq_or_symm h' with ⟨rfl, rfl, rfl, rfl⟩ | ⟨rfl, rfl, rfl, rfl⟩
    · obtain rfl : a = a' := Option.some.inj (ha.symm.trans ha')
      exact .inl hdominated
    · obtain rfl : b = a' := Option.some.inj (hb.symm.trans ha')
      exact .inr hdominated
  · rintro (hcovered | hcovered)
    · refine ⟨edgeFrom t u name i j a b, List.mem_filter.2 ⟨?_, ?_⟩, rfl⟩
      · exact mem_pairEdges_iff.2 ⟨t, u, i, j, name, a, b, h, ha, hb, hmeet, rfl⟩
      · exact (dominated_iff h hne ha hb hmeet).2 hcovered
    · refine ⟨edgeFrom u t name j i b a, List.mem_filter.2 ⟨?_, ?_⟩, rfl⟩
      · exact mem_pairEdges_iff.2 ⟨u, t, j, i, name, b, a, h.symm, hb, ha, hmeet.symm, rfl⟩
      · exact (dominated_iff h.symm hne hb ha hmeet.symm).2 hcovered

/-- The edges of a pair that are left join exposed statements. -/
theorem mem_removeDominated (hne : first.id ≠ second.id) :
    e ∈ removeDominated first second (pairEdges first second) ↔
      ∃ (t u : Transaction) (i j : Nat) (name : String) (a b : Statement),
        Oriented first second t u i j name ∧ t.statements[i]? = some a ∧
        u.statements[j]? = some b ∧ Meet a b ∧ t.Exposes a ∧ u.Exposes b ∧
        e = edgeFrom t u name i j a b := by
  have hleft : ∀ {t u : Transaction} {i j : Nat} {name : String} {a b : Statement},
      Oriented first second t u i j name → t.statements[i]? = some a →
      u.statements[j]? = some b → Meet a b →
      ((kindOf a b = .writeWrite ∨ name ∉ ((pairEdges first second).filter
        (dominated first second (pairEdges first second))).map Edge.name) ↔
        t.Exposes a ∧ u.Exposes b) := by
    intro t u i j name a b h ha hb hmeet
    rw [mem_dominated_names h hne ha hb hmeet, kindOf_eq_writeWrite_iff, not_or]
    constructor
    · rintro (⟨hwa, hwb⟩ | ⟨hna, hnb⟩)
      · refine ⟨⟨hmeet.source, ?_⟩, ⟨hmeet.target, ?_⟩⟩
        · rw [hwa]
          exact fun hread => Bool.noConfusion hread.1
        · rw [hwb]
          exact fun hread => Bool.noConfusion hread.1
      · exact ⟨⟨hmeet.source, hna⟩, ⟨hmeet.target, hnb⟩⟩
    · rintro ⟨hea, heb⟩
      exact .inr ⟨hea.2, heb.2⟩
  rw [removeDominated, List.mem_filter]
  simp only [Bool.or_eq_true, beq_iff_eq, Bool.not_eq_true', List.contains_eq_mem,
    decide_eq_false_iff_not]
  rw [mem_pairEdges_iff]
  constructor
  · rintro ⟨⟨t, u, i, j, name, a, b, h, ha, hb, hmeet, rfl⟩, hkept⟩
    obtain ⟨hea, heb⟩ := (hleft h ha hb hmeet).1 hkept
    exact ⟨t, u, i, j, name, a, b, h, ha, hb, hmeet, hea, heb, rfl⟩
  · rintro ⟨t, u, i, j, name, a, b, h, ha, hb, hmeet, hea, heb, rfl⟩
    exact ⟨⟨t, u, i, j, name, a, b, h, ha, hb, hmeet, rfl⟩,
      (hleft h ha hb hmeet).2 ⟨hea, heb⟩⟩

end Pair

section Build

variable {ts : List Transaction} {p q : StatementRef} {a b : Statement} {e : Edge}

theorem mem_orderedPairs {α : Type} {xs : List α} {x y : α} :
    (x, y) ∈ orderedPairs xs ↔ ∃ k l : Nat, k < l ∧ xs[k]? = some x ∧ xs[l]? = some y := by
  induction xs with
  | nil => simp [orderedPairs]
  | cons z rest ih =>
      rw [orderedPairs, List.mem_append, List.mem_map, ih]
      constructor
      · rintro (⟨w, hw, he⟩ | ⟨k, l, hkl, hx, hy⟩)
        · obtain ⟨rfl, rfl⟩ := Prod.mk.inj he
          obtain ⟨l, hl⟩ := List.mem_iff_getElem?.1 hw
          exact ⟨0, l + 1, Nat.succ_pos l, rfl, hl⟩
        · exact ⟨k + 1, l + 1, Nat.succ_lt_succ hkl, hx, hy⟩
      · rintro ⟨k, l, hkl, hx, hy⟩
        obtain ⟨l, rfl⟩ : ∃ n, l = n + 1 := ⟨l - 1, by omega⟩
        rw [List.getElem?_cons_succ] at hy
        cases k with
        | zero =>
            obtain rfl : z = x := Option.some.inj hx
            exact .inl ⟨y, List.mem_of_getElem? hy, rfl⟩
        | succ k => exact .inr ⟨k, l, Nat.lt_of_succ_lt_succ hkl, hx, hy⟩

/-- The number of each template is its place. -/
def Numbered (ts : List Transaction) : Prop :=
  ∀ (k : Nat) (t : Transaction), ts[k]? = some t → t.id = k

/-- A statement of a workload that takes part in conflicts. -/
structure Exposed (ts : List Transaction) (p : StatementRef) (t : Transaction) (a : Statement) :
    Prop where
  template : ts[p.template]? = some t
  statement : t.statements[p.index]? = some a
  exposes : t.Exposes a

/-- Two statements of different templates conflict. -/
structure Conflict (ts : List Transaction) (p q : StatementRef) (a b : Statement) : Prop where
  apart : p.template ≠ q.template
  source : ∃ t, Exposed ts p t a
  target : ∃ u, Exposed ts q u b
  relation : a.relation = b.relation
  writes : a.kind.isWrite = true ∨ b.kind.isWrite = true

def templateName (ts : List Transaction) (k : Nat) : String := ts[k]?.elim "" Transaction.name

/-- The name of the conflict of two statements, that of the earlier template first. -/
def nameBetween (ts : List Transaction) (p q : StatementRef) : String :=
  if p.template < q.template then
    conflictName (templateName ts p.template) (templateName ts q.template) p.index q.index
  else conflictName (templateName ts q.template) (templateName ts p.template) q.index p.index

theorem templateName_eq {k : Nat} {t : Transaction} (h : ts[k]? = some t) :
    templateName ts k = t.name := by
  rw [templateName, h]
  rfl

/-- The templates of a pair are found under their numbers, and the pair gives their conflicts the
names that they have in the workload. -/
theorem Oriented.placed (hn : Numbered ts) {first second t u : Transaction} {i j : Nat}
    {name : String} (hpair : (first, second) ∈ orderedPairs ts)
    (h : Oriented first second t u i j name) :
    ts[t.id]? = some t ∧ ts[u.id]? = some u ∧ t.id ≠ u.id ∧
      name = nameBetween ts ⟨t.id, i⟩ ⟨u.id, j⟩ := by
  obtain ⟨k, l, hkl, hfirst, hsecond⟩ := mem_orderedPairs.1 hpair
  obtain rfl := hn k first hfirst
  obtain rfl := hn l second hsecond
  cases h with
  | forward =>
      refine ⟨hfirst, hsecond, Nat.ne_of_lt hkl, ?_⟩
      rw [nameBetween, if_pos hkl, templateName_eq hfirst, templateName_eq hsecond]
  | backward =>
      refine ⟨hsecond, hfirst, Nat.ne_of_gt hkl, ?_⟩
      rw [nameBetween, if_neg (Nat.lt_asymm hkl), templateName_eq hfirst, templateName_eq hsecond]

theorem exists_oriented {t u : Transaction} (hne : p.template ≠ q.template)
    (ht : ts[p.template]? = some t) (hu : ts[q.template]? = some u) :
    ∃ first second, (first, second) ∈ orderedPairs ts ∧
      Oriented first second t u p.index q.index (nameBetween ts p q) := by
  rcases Nat.lt_or_gt_of_ne hne with hlt | hlt
  · refine ⟨t, u, mem_orderedPairs.2 ⟨_, _, hlt, ht, hu⟩, ?_⟩
    rw [nameBetween, if_pos hlt, templateName_eq ht, templateName_eq hu]
    exact .forward _ _
  · refine ⟨u, t, mem_orderedPairs.2 ⟨_, _, hlt, hu, ht⟩, ?_⟩
    rw [nameBetween, if_neg (Nat.lt_asymm hlt), templateName_eq ht, templateName_eq hu]
    exact .backward _ _

theorem id_ne_of_mem_orderedPairs (hn : Numbered ts) {first second : Transaction}
    (hpair : (first, second) ∈ orderedPairs ts) : first.id ≠ second.id := by
  obtain ⟨k, l, hkl, hfirst, hsecond⟩ := mem_orderedPairs.1 hpair
  rw [hn k first hfirst, hn l second hsecond]
  exact Nat.ne_of_lt hkl

/-- The edges of the graph of a workload are the conflicts of its statements. -/
theorem mem_build_edges (hn : Numbered ts) :
    e ∈ (build ts).edges ↔ ∃ a b, Conflict ts e.sourceRef e.targetRef a b ∧
      e.kind = kindOf a b ∧ e.name = nameBetween ts e.sourceRef e.targetRef := by
  rw [build, List.mem_flatMap]
  constructor
  · rintro ⟨⟨first, second⟩, hpair, he⟩
    obtain ⟨t, u, i, j, name, a, b, h, ha, hb, hmeet, hea, heb, rfl⟩ :=
      (mem_removeDominated (id_ne_of_mem_orderedPairs hn hpair)).1 he
    obtain ⟨ht, hu, hne, hname⟩ := h.placed hn hpair
    exact ⟨a, b, ⟨hne, ⟨t, ht, ha, hea⟩, ⟨u, hu, hb, heb⟩, hmeet.relation, hmeet.writes⟩, rfl,
      hname⟩
  · rintro ⟨a, b, ⟨hne, ⟨t, ht, ha, hea⟩, ⟨u, hu, hb, heb⟩, hrelation, hwrites⟩, hkind, hname⟩
    obtain ⟨first, second, hpair, h⟩ := exists_oriented hne ht hu
    have hmeet : Meet a b := ⟨hea.1, heb.1, hrelation, hwrites⟩
    refine ⟨(first, second), hpair, (mem_removeDominated (id_ne_of_mem_orderedPairs hn hpair)).2
      ⟨t, u, _, _, _, a, b, h, ha, hb, hmeet, hea, heb, ?_⟩⟩
    rw [edgeFrom, hn _ t ht, hn _ u hu, ← hkind, ← hname]
    rfl

end Build

end ConflictGraph

end LiveIsolation
