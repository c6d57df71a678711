import LiveIsolation.Proofs.Engine.Overlap

/-!
# Commits under way

The locks that the commits under way hold are those that the lock table counts, each of them asks
only for relations that the table knows, and nothing goes wrong with it (`Overlap.Proper`). So a
commit ends in one of three ways (`Overlap.Advances`): the store has committed, the store has
failed, or there is a conflict. Every move keeps this.
-/

namespace LiveIsolation

namespace CommitCall

variable {t : OpenTransaction} {known : List String}

theorem orderly_begin (t : OpenTransaction) (d : Option Discipline) :
    (begin t d).committer.Orderly := by
  cases d with
  | some d => exact Committer.orderly_idle d t.obligations
  | none => exact ⟨List.nil_sublist _, rfl, nofun⟩

theorem held_begin (t : OpenTransaction) (d : Option Discipline) :
    (begin t d).committer.held = [] := by
  cases d <;> rfl

/-- A commit begins with nothing but what its transaction asks for. -/
theorem proper_begin (ht : t.Within known) (d : Option Discipline) :
    (begin t d).Proper known := by
  cases d with
  | some d => exact ⟨⟨ht.obligations d, trivial⟩, nofun, nofun, rfl, nofun, nofun, nofun⟩
  | none => exact ⟨⟨nofun, nofun⟩, nofun, nofun, rfl, nofun, nofun, nofun⟩

end CommitCall

namespace Engine

variable {e : Engine} {w : Worker}

theorem enterBoundary_crossed (e : Engine) (w : Worker) (call : EndCall)
    (result : Except Fault Unit) : e.Crossed w (e.enterBoundary w call result).2 := by
  simp only [enterBoundary, endCall]
  split
  · exact ⟨e.barrier, e.store.levels, w.protocol, none, rfl, .refl _⟩
  · rename_i required barrier henter
    exact ⟨barrier, e.store.levels, w.protocol, _, rfl, Barrier.keeps_enter henter⟩

/-- An action that ends no transaction leaves the workload and the locks. -/
theorem Acts.same {a : EngineAction} {x : List EngineEvent × Engine} (h : e.Acts a x) :
    x.2.workload = e.workload ∧ x.2.locks = e.locks := by
  cases h with
  | aside a e' events huntouched _ => exact ⟨huntouched.workload, huntouched.locks⟩
  | joined id w e₁ huntouched _ _ _ _ => exact ⟨huntouched.workload, huntouched.locks⟩
  | linked id calls w link _ => exact ⟨rfl, rfl⟩
  | executed id name index args w _ answer e' hexecuted =>
      have hbegun : ∀ template, (e.begun w template).workload = e.workload ∧
          (e.begun w template).locks = e.locks := by
        intro template
        obtain ⟨counters, next, hsame⟩ := begun_eq e w template
        rw [hsame]
        exact ⟨rfl, rfl⟩
      cases hexecuted with
      | refused f _ => exact ⟨rfl, rfl⟩
      | keyless q f _ _ => exact hbegun q.template
      | lost q key f _ _ _ => exact hbegun q.template
      | answered q key outcome link _ _ _ => exact hbegun q.template
  | closed id w _ _ => exact ⟨rfl, rfl⟩
  | left id w _ call result boundary _ e₁ e' huntouched hleaving =>
      obtain ⟨barrier, levels, protocol, blocked, rfl, -⟩ := hleaving.crossed
      exact ⟨huntouched.workload, huntouched.locks⟩

end Engine

namespace Overlap

open Engine

variable {o : Overlap} {w w' : Worker} {c : CommitCall} {t : OpenTransaction} {id : Nat}
  {e₁ : Engine} {known : List String}

section Advances

/-- What the next move of a commit comes to if nothing is wrong with it. -/
inductive Advances (o : Overlap) (w : Worker) (c : CommitCall) (t : OpenTransaction) :
    List EngineEvent × Overlap → Prop where
  | committed (hended : c.committer.stage = .ended) (hstored : c.stored = some []) :
    Advances o w c t (o.conclude w o.engine true (.ok ()))
  | failed (f : Fault) (hcls : f.cls = .store) (hended : c.committer.stage = .ended)
    (hstored : c.stored = none) : Advances o w c t (o.conclude w o.engine false (.error f))
  | turnedAway (found : List Conflict) (hfound : found ≠ []) (hended : c.committer.stage = .ended)
    (hstored : c.stored = none) :
    Advances o w c t
      (o.conclude w
        { o.engine with
          counters := o.engine.counters.conflict (Conflict.lockCount found)
            (Conflict.staleCount found) }
        false (.error (.conflicts found)))
  | madeKnown (row : Place × Nat) (rest : List (Place × Nat)) (locks : LockTable)
    (hstored : c.stored = some (row :: rest))
    (hlocks : o.engine.locks.updateVersion row.1.1 row.1.2 row.2 = (.ok (), locks)) :
    Advances o w c t
      ([], o.set { o.engine with locks } w.id (some { c with stored := some rest }))
  | refused (f : Fault) (hcls : f.cls = .store) (hover : c.committer.stage.over = false) :
    Advances o w c t
      ([], o.set o.engine w.id
        (some { c with committer := c.committer.leave false, refusal := some (.fault f) }))
  | stored (link : Link) (store : Store) (hover : c.committer.stage.over = false)
    (hcommit : w.link.commit o.engine.store = .ok (link, store)) :
    Advances o w c t
      ([], o.set ({ o.engine with store }.put { w with link }) w.id
        (some { c with committer := c.committer.leave true, stored := some t.written }))
  | visits : Advances o w c t ([], o.visit w c)

theorem advance_inv (h : c.Proper known) (hfit : o.engine.locks.Fit known) (w : Worker)
    (t : OpenTransaction) : o.Advances w c t (o.advance w c t) := by
  simp only [advance]
  split
  · rename_i hended hstored
    rw [h.returned]
    exact .committed hended hstored
  · rename_i row rest _ hstored
    have hmem := h.stored _ hstored row List.mem_cons_self
    obtain ⟨locks, hlocks, -⟩ := LockTable.updateVersion_eq (p := row.1) hfit hmem row.2
    have hsame : ({ c with stored := some rest, returned := Fault.first c.returned (.ok ()) } :
        CommitCall) = { c with stored := some rest } := by
      rw [h.returned, Fault.first_ok, ← h.returned]
    simp only [makeKnown, hlocks, hsame]
    exact .madeKnown row rest locks hstored hlocks
  · rename_i r hended hstored hrefusal
    have hproper := h.refusal r hrefusal
    cases r with
    | fault f => exact .failed f hproper hended hstored
    | conflicts found =>
        have hreject : o.engine.reject found = (.conflicts found,
            { o.engine with
              counters := o.engine.counters.conflict (Conflict.lockCount found)
                (Conflict.staleCount found) }) := by
          cases found with
          | nil => exact absurd rfl hproper
          | cons conflict rest => rfl
        simp only [giveUp, h.returned, hreject]
        exact .turnedAway found hproper hended hstored
  · rename_i hended hstored hrefusal
    have hclear := h.clear (by rw [hended]; rfl)
    rw [hstored, hrefusal] at hclear
    rcases hclear with hclear | hclear <;> cases hclear
  · rename_i lookup hstage
    have hover : c.committer.stage.over = false := by rw [hstage]; rfl
    simp only [askStore]
    split
    · rename_i f hcommit
      exact .refused f (Link.cls_of_commit hcommit) hover
    · rename_i link store hcommit
      exact .stored link store hover hcommit
  · exact .visits

end Advances

section Race

theorem parties_set_self (o : Overlap) (e : Engine) (id : Nat) (c : CommitCall) :
    (o.set e id (some c)).race.parties id = c.committer := by
  simp only [race, set, Function.update_self, Option.elim_some]

theorem parties_set_of_ne (o : Overlap) (e : Engine) (c : Option CommitCall) {other : Nat}
    (hne : other ≠ id) : (o.set e id c).race.parties other = o.race.parties other := by
  simp only [race, set, Function.update_of_ne hne]

theorem parties_of_calls (hcall : o.calls id = some c) : o.race.parties id = c.committer := by
  simp only [race, hcall, Option.elim_some]

theorem held_of_none (hcall : o.calls id = none) : (o.race.parties id).held = [] := by
  simp only [race, hcall, Option.elim_none]

end Race

/-- The commits under way hold the locks that the table counts, and nothing is wrong with them. -/
structure Proper (o : Overlap) : Prop where
  steady : o.engine.Steady
  tallied : o.race.Tallied
  calls : ∀ id c, o.calls id = some c → c.Proper o.engine.workload.relations

theorem Proper.fit (h : o.Proper) : o.engine.locks.Fit o.engine.workload.relations :=
  h.steady.whole.fit

/-- One of the commits goes on, begins or ends. -/
theorem Proper.set (h : o.Proper) (hsteady : e₁.Steady)
    (hworkload : e₁.workload = o.engine.workload) {c : Option CommitCall}
    (htallied : (o.set e₁ id c).race.Tallied)
    (hproper : ∀ c', c = some c' → c'.Proper o.engine.workload.relations) :
    (o.set e₁ id c).Proper where
  steady := hsteady
  tallied := htallied
  calls i c' hc' := by
    change c'.Proper e₁.workload.relations
    rw [hworkload]
    change Function.update o.calls id c i = some c' at hc'
    rw [Function.update_apply] at hc'
    split at hc'
    · exact hproper c' hc'
    · exact h.calls i c' hc'

/-- The engine changes, but neither its locks nor the commits under way. -/
theorem Proper.aside (h : o.Proper) (hsteady : e₁.Steady)
    (hworkload : e₁.workload = o.engine.workload) (hlocks : e₁.locks = o.engine.locks) :
    Proper { o with engine := e₁ } where
  steady := hsteady
  tallied := by
    refine h.tallied.congr rfl ?_ (congrArg LockTable.hold? hlocks)
    change e₁.locks.Fit []
    exact hlocks ▸ h.tallied.fit
  calls i c hc := by
    change c.Proper e₁.workload.relations
    exact hworkload ▸ h.calls i c hc

theorem Proper.enterBoundary (h : o.Proper) (hsteady : e₁.Steady)
    (hworkload : e₁.workload = o.engine.workload) (hlocks : e₁.locks = o.engine.locks)
    (hw : w.Tidy e₁.workload.relations) (call : EndCall) (result : Except Fault Unit) :
    Proper { o with engine := (e₁.enterBoundary w call result).2 } := by
  have hcrossed := enterBoundary_crossed e₁ w call result
  have hafter := hsteady.cross hw hcrossed
  obtain ⟨barrier, levels, protocol, blocked, he, -⟩ := hcrossed
  exact h.aside hafter (he ▸ hworkload) (he ▸ hlocks)

/-- A commit that has come to its end has given everything back. -/
theorem Proper.conclude (h : o.Proper) (hw : o.engine.worker? w.id = some w)
    (hcall : o.calls w.id = some c) (hended : c.committer.stage = .ended) (counters : Counters)
    (committed : Bool) (result : Except Fault Unit) :
    (o.conclude w { o.engine with counters } committed result).2.Proper := by
  have htidy := h.steady.tidy w.id w hw
  -- The commit leaves the race before its worker comes to the boundary.
  have hgone : ∀ counters, (o.set { o.engine with counters } w.id none).Proper := by
    intro counters
    have hengine : Steady { o.engine with counters } := h.steady.congr rfl (.refl _) rfl
    refine h.set hengine rfl ?_ fun _ hc => nomatch hc
    have hheld : (o.race.parties w.id).held = [] := by
      rw [parties_of_calls hcall]
      exact (h.calls w.id c hcall).spent hended
    have hnone : (o.set { o.engine with counters } w.id none).calls w.id = none :=
      Function.update_self ..
    refine h.tallied.replaced hheld (held_of_none hnone) ?_
      (fun other ho => parties_set_of_ne o _ none ho) rfl
    simp only [race, hnone, Option.elim_none]
    exact Committer.orderly_idle _ _
  have hcross : ∀ (x : Worker) counters, x.Tidy o.engine.workload.relations →
      (o.set ({ o.engine with counters }.enterBoundary x .commit result).2 w.id none).Proper :=
    fun x counters hx => (hgone counters).enterBoundary (hgone counters).steady rfl rfl hx _ _
  simp only [Overlap.conclude]
  cases committed with
  | true => exact hcross _ _ ⟨htidy.rollback, htidy.sorted, nofun⟩
  | false =>
      simp only [Bool.false_eq_true, if_false, abandon_eq, Link.rollback_eq htidy.rollback]
      exact hcross _ _ htidy.ended

/-- A commit visits a lock, or hears of a version. -/
theorem Proper.visit (h : o.Proper) (hcall : o.calls w.id = some c) : (o.visit w c).Proper := by
  have hparty := parties_of_calls hcall
  have hproper := h.calls w.id c hcall
  have horderly : c.committer.Orderly := hparty ▸ h.tallied.orderly w.id
  simp only [Overlap.visit]
  generalize hfetch : (fun relation key => w.link.fetch o.engine.store (relation, key)) = fetch
  have hfetched : ∀ f, c.committer.nextMove fetch = .answer (.error f) → f.cls = .store := by
    intro f hmove
    unfold Committer.nextMove at hmove
    split at hmove
    · have hanswer := CommitMove.answer.inj hmove
      rw [← hfetch] at hanswer
      exact Link.cls_of_fetch hanswer
    · cases hmove
  have hmove : ∀ advance, c.committer.nextMove fetch ≠ .finish advance := by
    intro advance
    unfold Committer.nextMove
    split
    · exact nofun
    · exact nofun
  generalize c.committer.nextMove fetch = move at hfetched hmove
  have hreturned : c.committer.returned o.engine.locks move = .ok () :=
    hparty ▸ h.tallied.returned_eq_ok w.id move
  have hmoved := Committer.moved_step horderly h.tallied.fit w.transaction move
  have hreaches := Committer.reaches_step c.committer w.transaction o.engine.locks move
  have hengine : Steady { o.engine with
      locks := (c.committer.step w.transaction o.engine.locks move).2 } :=
    h.steady.congr rfl hreaches rfl
  refine h.set hengine rfl ?_ ?_
  · refine h.tallied.moved w.id ?_ fun other ho => parties_set_of_ne o _ _ ho
    rw [parties_set_self, hparty]
    exact hmoved
  · rintro c' hc'
    obtain rfl := Option.some.inj hc'
    exact hproper.visit horderly h.fit hreturned hfetched hmove

theorem Proper.advance (h : o.Proper) (hw : o.engine.worker? w.id = some w)
    (ht : w.current = some t) (hcall : o.calls w.id = some c) : (o.advance w c t).2.Proper := by
  have hparty := parties_of_calls hcall
  have hproper := h.calls w.id c hcall
  have horderly : c.committer.Orderly := hparty ▸ h.tallied.orderly w.id
  have htidy := h.steady.tidy w.id w hw
  have hadvances := advance_inv hproper h.fit w t
  generalize o.advance w c t = x at hadvances
  -- A commit that begins to give its locks back still holds them.
  have hleave : ∀ (e₁ : Engine) (c' : CommitCall) advance, e₁.locks = o.engine.locks →
      c'.committer = c.committer.leave advance → (o.set e₁ w.id (some c')).race.Tallied := by
    intro e₁ c' advance hlocks hc'
    refine h.tallied.moved w.id ?_ fun other ho => parties_set_of_ne o _ _ ho
    have htable : (o.set e₁ w.id (some c')).race.table = o.race.table := hlocks
    rw [parties_set_self, hparty, hc', htable]
    exact Committer.moved_leave horderly h.tallied.fit advance
  cases hadvances with
  | committed hended _ => exact h.conclude hw hcall hended _ true _
  | failed f _ hended _ => exact h.conclude hw hcall hended _ false _
  | turnedAway found _ hended _ => exact h.conclude hw hcall hended _ false _
  | madeKnown row rest locks hstored hlocks =>
      have hmem := hproper.stored _ hstored row List.mem_cons_self
      obtain ⟨locks', hlocks', hfit, hhold, -⟩ :=
        LockTable.updateVersion_eq (p := row.1) h.fit hmem row.2
      obtain rfl : locks = locks' := congrArg Prod.snd (hlocks.symm.trans hlocks')
      have hreaches : o.engine.locks.Reaches locks := by
        have hserved := o.engine.locks.reaches_updateVersion row.1.1 row.1.2 row.2
        rwa [hlocks] at hserved
      have hengine : Steady { o.engine with locks } := h.steady.congr rfl hreaches rfl
      refine h.set hengine rfl ?_ ?_
      · refine h.tallied.congr (funext fun other => ?_) ⟨hfit.sorted, nofun⟩ hhold
        by_cases ho : other = w.id
        · rw [ho, parties_set_self, hparty]
        · exact parties_set_of_ne o _ _ ho
      · rintro c' hc'
        obtain rfl := Option.some.inj hc'
        refine { hproper with stored := ?_, settled := ?_, clear := ?_ }
        · intro rows hrows x hx
          obtain rfl := Option.some.inj hrows
          exact hproper.stored _ hstored x (List.mem_cons_of_mem _ hx)
        · exact fun _ => hproper.settled (by rw [hstored]; rfl)
        · exact fun _ => .inl rfl
  | refused f hcls _ =>
      refine h.set h.steady rfl (hleave _ _ false rfl rfl) ?_
      rintro c' hc'
      obtain rfl := Option.some.inj hc'
      refine ⟨⟨hproper.within.duties, trivial⟩, nofun, ?_, hproper.returned, hproper.stored,
        fun _ => rfl, fun _ => .inr rfl⟩
      rintro r hr
      obtain rfl := Option.some.inj hr
      exact hcls
  | stored link store _ hcommit =>
      obtain ⟨-, -, rfl, -⟩ := Link.commit_eq_ok.1 hcommit
      have hengine : Steady { o.engine with store } := h.steady.congr rfl (.refl _) rfl
      have hput := hengine.put (w := { w with link.connection.writes := [] })
        ⟨htidy.rollback, List.Pairwise.nil, htidy.within⟩
      refine h.set hput rfl (hleave _ _ true rfl rfl) ?_
      rintro c' hc'
      obtain rfl := Option.some.inj hc'
      refine ⟨⟨hproper.within.duties, trivial⟩, nofun, hproper.refusal, hproper.returned, ?_,
        fun _ => rfl, fun _ => .inl rfl⟩
      rintro rows hrows
      obtain rfl := Option.some.inj hrows
      exact (htidy.within t ht).written
  | visits => exact h.visit hcall

/-- Every move keeps the commits under way as they should be. -/
theorem Proper.take (h : o.Proper) (hmanned : o.Manned) (m : OverlapMove) :
    (o.take m).2.Proper := by
  have hmoves := moves_take hmanned.seated m
  generalize o.take m = x at hmoves
  cases hmoves with
  | rests => exact h
  | acts a x hacts _ hsteady _ => exact h.aside (hsteady h.steady) hacts.same.1 hacts.same.2
  | absent id call _ => exact h
  | begins w t hw ht _ hcall =>
      refine h.set h.steady rfl ?_ ?_
      · have hself : ∀ c, (o.set o.engine w.id (some c)).race.parties w.id = c.committer :=
          parties_set_self o _ _
        refine h.tallied.replaced (held_of_none hcall) ?_ ?_
          (fun other ho => parties_set_of_ne o _ _ ho) rfl
        · rw [hself]
          exact CommitCall.held_begin t _
        · rw [hself]
          exact CommitCall.orderly_begin t _
      · rintro c hc
        obtain rfl := Option.some.inj hc
        exact CommitCall.proper_begin ((h.steady.tidy w.id w hw).within t ht) _
  | rollsBack w t hw _ _ _ x hx =>
      have htidy := h.steady.tidy w.id w hw
      have hengine : Steady { o.engine with counters := o.engine.counters.finish false } :=
        h.steady.congr rfl (.refl _) rfl
      rw [← hx, Link.rollback_eq htidy.rollback]
      exact h.enterBoundary hengine rfl rfl htidy.ended _ _
  | passes w call hw _ _ _ x hx =>
      rw [← hx]
      exact h.enterBoundary h.steady rfl rfl (h.steady.tidy w.id w hw) call _
  | proceeds w t c hw ht hcall => exact h.advance hw ht hcall

theorem proper_start {workload : Workload} {config : EngineConfig} {keys : KeyRule} {e : Engine}
    (h : create workload config keys = .ok e) (store : Store) :
    (start { e with store }).Proper := by
  have hsteady : Steady { e with store } := (steady_create h).congr rfl (.refl _) rfl
  obtain ⟨protocol, locks, -, hlocks, rfl⟩ := create_eq_ok h
  obtain ⟨hfit, hfree, -⟩ := LockTable.create_eq_ok hlocks
  refine ⟨hsteady, ?_, nofun⟩
  exact (Race.sound_start ⟨hfit.sorted, nofun⟩ hfree (fun _ => .snapshot) fun _ => {}).toTallied

/-- What holds of the workers and of the commits under way when moves begin, holds after them. -/
theorem Proper.run (h : o.Proper) (hmanned : o.Manned) (moves : List OverlapMove) :
    (o.run moves).Proper ∧ (o.run moves).Manned :=
  List.foldlRecOn moves _ (motive := fun o : Overlap => o.Proper ∧ o.Manned) ⟨h, hmanned⟩
    fun _ h m _ => ⟨h.1.take h.2 m, h.2.take m⟩

end Overlap

end LiveIsolation
