import LiveIsolation.Proofs.LockTable.Exclusion
import Mathlib.Logic.Relation

/-!
# Waiting for one another

A commit that has been told to wait asks for the same row again, and in the meantime its guard
holds the rows that stand before it in the plan. A plan names its rows in their order, so that a
commit waits for a row behind all those that it holds. Where each of some commits waits for a row
that the next one holds, the rows come later and later, and the last commit cannot hold the row
that the first one waits for.

A transaction may commit many times, with whatever obligations it has by then, if each of its
commits has given everything back before the next one begins (`Race.renew`). A commit that is
refused, or that has waited too often, ends in this way too.
-/

namespace LiveIsolation

/-- A plan names its rows in their order. -/
theorem LockPlan.ordered_places_ofObligations (os : List Obligation) :
    (ofObligations os).places.Pairwise fun p p' => placeLt p p' = true := by
  rw [places_ofObligations]
  exact List.pairwise_map.2 (sorted_kindsOf os)

namespace Committer

variable {c : Committer} {t : LockTable} {p : Place}

/-- The row that the commit has been told to wait for. -/
def awaited? (c : Committer) : Option Place :=
  match c.stage with
  | .locking (q :: _) (_ + 1) => some q.place
  | _ => none

/-- What a commit waits for comes behind all that it holds. -/
theorem Orderly.lt_awaited (h : c.Orderly) (hp : c.awaited? = some p) {held : Place}
    (hheld : held ∈ c.held.places) : placeLt held p = true := by
  unfold awaited? at hp
  split at hp
  · rename_i q rest waits hstage
    obtain rfl := Option.some.inj hp
    obtain ⟨hplan, -⟩ : c.held ++ q :: rest = c.plan ∧ c.compared = [] := by
      have hall := h.at_stage
      rwa [hstage] at hall
    have hordered := LockPlan.ordered_places_ofObligations c.duties
    rw [← show c.plan = LockPlan.ofObligations c.duties from rfl, ← hplan, LockPlan.places,
      List.map_append] at hordered
    exact (List.pairwise_append.1 hordered).2.2 held hheld q.place List.mem_cons_self
  · cases hp

/-- A commit that has ended has given everything back. -/
def Spent (c : Committer) : Prop := c.stage = .ended → c.held = []

theorem spent_attempt (c : Committer) (id : Nat) (t : LockTable) (q : LockRequest)
    (rest : LockPlan) (waits : Nat) : (c.attempt id t q rest waits).1.Spent := by
  unfold attempt
  split
  · exact nofun
  · exact nofun
  · exact nofun
  · split
    · exact nofun
    · exact nofun

theorem spent_look (c : Committer) (t : LockTable) (o : Obligation) (observed : Nat)
    (rest : List Obligation) (found : List Conflict) {otherwise : Committer}
    (h : otherwise.Spent) : (c.look t o observed rest found otherwise).Spent := by
  unfold look
  split
  · exact nofun
  · exact h
  · exact nofun

theorem Spent.check (h : c.Spent) (t : LockTable) (o : Obligation) (rest : List Obligation)
    (found : List Conflict) (lookup : Lookup) (move : CommitMove) :
    (c.check t o rest found lookup move).1.Spent := by
  unfold Committer.check
  split
  · exact nofun
  · exact spent_look c t o _ rest found nofun
  · rename_i version _
    unfold hear
    split
    · exact nofun
    · exact nofun
    · exact nofun
  · exact nofun
  · exact spent_look c t o _ rest found nofun
  · exact h

theorem Spent.giveBack (h : c.Spent) (t : LockTable) (advance : Bool) :
    (c.giveBack t advance).1.Spent := by
  unfold Committer.giveBack
  split
  · rename_i hheld
    exact fun _ => hheld
  · rename_i q rest hheld
    intro hended
    have hnone := h hended
    rw [hheld] at hnone
    cases hnone

theorem Spent.step (h : c.Spent) (id : Nat) (t : LockTable) (move : CommitMove) :
    (c.step id t move).1.Spent := by
  unfold Committer.step
  split
  · exact nofun
  · exact nofun
  · exact spent_attempt c id t _ _ _
  · exact nofun
  · exact nofun
  · split
    · exact h
    · exact nofun
  · exact h.check t _ _ _ _ _
  · exact h.giveBack t _
  · exact h

end Committer

namespace Race

variable {r : Race} {t : LockTable} {p : Place} {id : Nat}

/-- A commit waits for a row that another one holds. -/
def WaitsFor (r : Race) (id other : Nat) : Prop :=
  ∃ p, (r.parties id).awaited? = some p ∧ p ∈ (r.parties other).held.places

/-- Puts another commit in the place of one. -/
def replace (r : Race) (id : Nat) (c : Committer) : Race :=
  { r with parties := Function.update r.parties id c }

@[simp] theorem parties_replace (r : Race) (id other : Nat) (c : Committer) :
    (r.replace id c).parties other = if other = id then c else r.parties other :=
  Function.update_apply _ _ _ _

/-- A transaction whose commit has ended, or has not begun, commits anew. -/
def renew (r : Race) (id : Nat) (discipline : Discipline) (obligations : Obligations) : Race :=
  match (r.parties id).stage with
  | .idle | .ended => r.replace id { discipline, obligations }
  | _ => r

end Race

/-- What happens while transactions commit again and again. -/
inductive RaceTurn where
  | move (id : Nat) (move : CommitMove)
  | renew (id : Nat) (discipline : Discipline) (obligations : Obligations)

namespace Race

variable {r : Race} {t : LockTable} {p : Place} {id : Nat}

def turn (r : Race) : RaceTurn → Race
  | .move id move => r.take id move
  | .renew id discipline obligations => r.renew id discipline obligations

/-- The race after some turns. -/
def through (r : Race) (turns : List RaceTurn) : Race := turns.foldl turn r

/-- Where only a commit that holds nothing is replaced by one that holds nothing, everyone holds
what it held. -/
theorem Tallied.replaced {s : Race} (h : r.Tallied) (hheld : (r.parties id).held = [])
    (hnew : (s.parties id).held = []) (horderly : (s.parties id).Orderly)
    (hothers : ∀ other, other ≠ id → s.parties other = r.parties other)
    (htable : s.table = r.table) : s.Tallied := by
  refine ⟨htable ▸ h.fit, ?_, ?_⟩
  · intro other
    by_cases ho : other = id
    · exact ho ▸ horderly
    · exact hothers other ho ▸ h.orderly other
  · intro p
    apply h.together_of_same hothers
    · intro k
      rw [Committer.Holds, Committer.Holds, hheld, hnew]
    · rw [htable]

/-- The count of every lock is the number of its holders, and only a commit that has not ended
holds anything. -/
structure Renewable (r : Race) : Prop extends r.Tallied where
  spent : ∀ id, (r.parties id).Spent

theorem Renewable.take (h : r.Renewable) (id : Nat) (move : CommitMove) :
    (r.take id move).Renewable := by
  refine ⟨h.toTallied.take id move, ?_⟩
  intro other
  rw [parties_take]
  split
  · exact (h.spent id).step id r.table move
  · exact h.spent other

theorem Renewable.renew (h : r.Renewable) (id : Nat) (discipline : Discipline)
    (obligations : Obligations) : (r.renew id discipline obligations).Renewable := by
  have hreplaced : (r.parties id).held = [] →
      (r.replace id { discipline, obligations }).Renewable := by
    intro hheld
    have hself : (r.replace id { discipline, obligations }).parties id =
        { discipline, obligations } := by rw [parties_replace, if_pos rfl]
    have hothers : ∀ other, other ≠ id →
        (r.replace id { discipline, obligations }).parties other = r.parties other :=
      fun other ho => by rw [parties_replace, if_neg ho]
    have horderly : ((r.replace id { discipline, obligations }).parties id).Orderly := by
      rw [hself]
      exact Committer.orderly_idle discipline obligations
    refine ⟨h.toTallied.replaced hheld (by rw [hself]) horderly hothers rfl, ?_⟩
    intro other
    rw [parties_replace]
    split
    · exact nofun
    · exact h.spent other
  unfold Race.renew
  split
  · rename_i hstage
    have hall := (h.orderly id).at_stage
    rw [hstage] at hall
    exact hreplaced hall.1
  · rename_i hstage
    exact hreplaced (h.spent id hstage)
  · exact h

theorem Renewable.turn (h : r.Renewable) (a : RaceTurn) : (r.turn a).Renewable := by
  cases a with
  | move id move => exact h.take id move
  | renew id discipline obligations => exact h.renew id discipline obligations

theorem Renewable.through (h : r.Renewable) (turns : List RaceTurn) :
    (r.through turns).Renewable :=
  List.foldlRecOn turns _ h fun _ h a _ => h.turn a

theorem renewable_start (hfit : t.Fit []) (hfree : t.Free) (discipline : Nat → Discipline)
    (obligations : Nat → Obligations) : (start t discipline obligations).Renewable :=
  ⟨(sound_start hfit hfree discipline obligations).toTallied, fun _ => nofun⟩

/-- Along commits of which each waits for the next one, the rows that they wait for come in their
order. -/
theorem Tallied.awaited_lt (h : r.Tallied) {other : Nat}
    (hchain : Relation.TransGen r.WaitsFor id other) {last : Place}
    (hp : (r.parties id).awaited? = some p) (hlast : (r.parties other).awaited? = some last) :
    placeLt p last = true := by
  induction hchain generalizing last with
  | single hwaits =>
      obtain ⟨q, hq, hheld⟩ := hwaits
      obtain rfl := Option.some.inj (hp.symm.trans hq)
      exact (h.orderly _).lt_awaited hlast hheld
  | tail _ hwaits ih =>
      obtain ⟨q, hq, hheld⟩ := hwaits
      exact trans_of (placeLt · · = true) (ih hq) ((h.orderly _).lt_awaited hlast hheld)

/-- Commits do not wait for one another in a circle. -/
theorem Tallied.no_circle (h : r.Tallied) (id : Nat) : ¬Relation.TransGen r.WaitsFor id id := by
  intro hcircle
  obtain ⟨next, ⟨p, hp, -⟩, -⟩ := Relation.TransGen.head'_iff.1 hcircle
  exact irrefl_of (placeLt · · = true) p (h.awaited_lt hcircle hp hp)

/-- Any number of transactions commit over one lock table, each one commit at a time, with
whatever disciplines and obligations, and their moves come in any order. At no time do commits
wait for one another in a circle, and none waits for a row that it holds itself. Each lock counts
the commits that hold its row, so that nobody else can be waited for. -/
theorem never_wait_in_circle {relations : List String} {config : LockTableConfig}
    (hcreate : LockTable.create relations config = .ok t) (discipline : Nat → Discipline)
    (obligations : Nat → Obligations) {turns : List RaceTurn}
    (hr : (start t discipline obligations).through turns = r) :
    (∀ id, ¬Relation.TransGen r.WaitsFor id id) ∧
      (∀ id p, (r.parties id).awaited? = some p → p ∉ (r.parties id).held.places) ∧
      ∀ p, ∃ holders kind, r.HeldTogether p holders kind := by
  obtain ⟨hfit, hfree, -⟩ := LockTable.create_eq_ok hcreate
  have htallied : r.Tallied := by
    have hstart := renewable_start ⟨hfit.sorted, nofun⟩ hfree discipline obligations
    exact hr ▸ (hstart.through turns).toTallied
  refine ⟨htallied.no_circle, ?_, htallied.tally⟩
  intro id p hp hheld
  exact htallied.no_circle id (.single ⟨p, hp, hheld⟩)

/-- The transaction 1 reads the row 2. -/
def reader : Obligations :=
  ({} : Obligations).record { readOne with key := 2 } true true

/-- The transaction 2 reads the row 1 and writes the row 2. -/
def copier : Obligations := justReads.record { writeOne with key := 2 } true true

/-- The transaction 3 writes the row 1. -/
def writer : Obligations := ({} : Obligations).record writeOne true true

/-- The transaction 3 is told to wait for the transaction 2, which waits for the transaction 1. -/
def queueUp : List RaceTurn :=
  [.renew 1 .snapshot reader, .renew 2 .snapshot copier, .renew 3 .readCommitted writer] ++
    (nexts 1 2 ++ nexts 2 3 ++ nexts 3 2).map fun m => .move m.1 m.2

def queued : Race := (start oneRelation (fun _ => .snapshot) fun _ => {}).through queueUp

theorem queued_wait :
    Relation.TransGen queued.WaitsFor 3 1 ∧ ∀ id, ¬Relation.TransGen queued.WaitsFor id id := by
  have hthird : queued.WaitsFor 3 2 := ⟨("x", 1), by decide +kernel⟩
  have hsecond : queued.WaitsFor 2 1 := ⟨("x", 2), by decide +kernel⟩
  have hqueued : (start oneRelation (fun _ => .snapshot) fun _ => {}).through queueUp = queued :=
    rfl
  have hcircle := never_wait_in_circle create_oneRelation (fun _ => .snapshot) (fun _ => {}) hqueued
  exact ⟨.tail (.single hthird) hsecond, hcircle.1⟩

end Race

end LiveIsolation
