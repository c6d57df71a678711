import LiveIsolation.Proofs.ConflictGraph.Enumeration
import LiveIsolation.Proofs.Registration

/-!
# Names of conflicts

The name of a conflict joins the names of its templates by a dash. It tells the places of the two
statements, but which templates they belong to only if no dash in a name can be taken for the one
that joins them: `a` and `b-c` give the same text as `a-b` and `c`. Two edges have one name exactly
if they are the directions of one conflict or their templates run together in this way
(`name_eq_iff`).
-/

namespace LiveIsolation

theorem StatementRef.eq_of_parts {p q : StatementRef} (htemplate : p.template = q.template)
    (hindex : p.index = q.index) : p = q := by
  obtain ⟨template, index⟩ := p
  obtain rfl : template = q.template := htemplate
  obtain rfl : index = q.index := hindex
  rfl

namespace Edge

variable {e f : Edge}

/-- The two statements that an edge joins. -/
def pair (e : Edge) : Sym2 StatementRef := s(e.sourceRef, e.targetRef)

/-- The statement in the template that was registered first. -/
def earlier (e : Edge) : StatementRef := if e.source < e.target then e.sourceRef else e.targetRef

/-- The statement in the template that was registered last. -/
def later (e : Edge) : StatementRef := if e.source < e.target then e.targetRef else e.sourceRef

theorem pair_eq (e : Edge) : e.pair = s(e.earlier, e.later) := by
  rw [pair, earlier, later]
  split
  · rfl
  · rw [Sym2.eq_swap]

theorem earlier_lt_later (h : e.source ≠ e.target) : e.earlier.template < e.later.template := by
  rw [earlier, later]
  split
  · assumption
  · rename_i hlt
    exact lt_of_le_of_ne (Nat.le_of_not_lt hlt) h.symm

theorem pair_eq_iff (he : e.source ≠ e.target) (hf : f.source ≠ f.target) :
    e.pair = f.pair ↔ e.earlier = f.earlier ∧ e.later = f.later := by
  rw [pair_eq, pair_eq, Sym2.eq_iff]
  constructor
  · rintro (h | ⟨hearlier, hlater⟩)
    · exact h
    · have hlt := earlier_lt_later he
      rw [hearlier, hlater] at hlt
      exact absurd (earlier_lt_later hf) (Nat.lt_asymm hlt)
  · exact .inl

/-- Edges between the same statements join the same nodes. -/
theorem ends_eq_of_pair_eq (h : e.pair = f.pair) :
    s(e.source, e.target) = s(f.source, f.target) :=
  congrArg (Sym2.map StatementRef.template) h

end Edge

namespace ConflictGraph

section Text

/-- The dash in `c-d` stands further on than the one in `a-b`: what is between the two belongs to
`c` in the one reading and to `b` in the other. -/
def DashMoves (a b c d : String) : Prop := ∃ mid, c = a ++ "-" ++ mid ∧ b = mid ++ "-" ++ d

theorem toList_append_dash (s t : String) :
    (s ++ "-" ++ t).toList = s.toList ++ '-' :: t.toList := by
  rw [String.toList_append, String.toList_append, List.append_assoc]
  rfl

theorem dashMoves_iff {a b c d : String} :
    DashMoves a b c d ↔
      ∃ mid, c.toList = a.toList ++ '-' :: mid ∧ b.toList = mid ++ '-' :: d.toList := by
  constructor
  · rintro ⟨mid, rfl, rfl⟩
    exact ⟨mid.toList, toList_append_dash a mid, toList_append_dash mid d⟩
  · rintro ⟨mid, hc, hb⟩
    refine ⟨String.ofList mid, ?_, ?_⟩
    · rw [String.ext_iff, toList_append_dash, String.toList_ofList, hc]
    · rw [String.ext_iff, toList_append_dash, String.toList_ofList, hb]

theorem append_dash_append_eq_iff {a b c d : String} :
    a ++ "-" ++ b = c ++ "-" ++ d ↔
      (a = c ∧ b = d) ∨ DashMoves a b c d ∨ DashMoves c d a b := by
  rw [String.ext_iff, toList_append_dash, toList_append_dash, append_cons_eq_append_cons_iff,
    dashMoves_iff, dashMoves_iff, ← String.ext_iff, ← String.ext_iff]

end Text

section Build

variable {ts : List Transaction} {e f : Edge} {c : Cycle}

/-- The templates of two conflicts give one text, although they are not the same. -/
def RunTogether (ts : List Transaction) (e f : Edge) : Prop :=
  e.earlier.index = f.earlier.index ∧ e.later.index = f.later.index ∧
    (DashMoves (templateName ts e.earlier.template) (templateName ts e.later.template)
        (templateName ts f.earlier.template) (templateName ts f.later.template) ∨
      DashMoves (templateName ts f.earlier.template) (templateName ts f.later.template)
        (templateName ts e.earlier.template) (templateName ts e.later.template))

theorem nameBetween_eq (ts : List Transaction) (e : Edge) :
    nameBetween ts e.sourceRef e.targetRef =
      conflictName (templateName ts e.earlier.template) (templateName ts e.later.template)
        e.earlier.index e.later.index := by
  rw [nameBetween, Edge.earlier, Edge.later]
  change (if e.source < e.target then _ else _) = _
  split
  · rfl
  · rfl

/-- The edges of a workload stay among its templates, and lead from one to another. -/
theorem ends_of_mem_build (hn : Numbered ts) (he : e ∈ (build ts).edges) :
    e.source < ts.length ∧ e.target < ts.length ∧ e.source ≠ e.target := by
  obtain ⟨a, b, h, -, -⟩ := (mem_build_edges hn).1 he
  obtain ⟨t, ht⟩ := h.source
  obtain ⟨u, hu⟩ := h.target
  exact ⟨(List.getElem?_eq_some_iff.1 ht.template).1, (List.getElem?_eq_some_iff.1 hu.template).1,
    h.apart⟩

theorem inside_build (hn : Numbered ts) : (build ts).Inside := fun _ he =>
  ⟨(ends_of_mem_build hn he).1, (ends_of_mem_build hn he).2.1⟩

/-- Templates with names of their own are told apart by them. -/
theorem templateName_inj (hnames : (ts.map Transaction.name).Nodup) {k l : Nat}
    (hk : k < ts.length) (hl : l < ts.length) :
    templateName ts k = templateName ts l ↔ k = l := by
  rw [templateName_eq (List.getElem?_eq_getElem hk), templateName_eq (List.getElem?_eq_getElem hl)]
  have hk' : k < (ts.map Transaction.name).length := by rwa [List.length_map]
  have hl' : l < (ts.map Transaction.name).length := by rwa [List.length_map]
  have hinj : (ts.map Transaction.name)[k] = (ts.map Transaction.name)[l] ↔ k = l :=
    List.Nodup.getElem_inj_iff hnames
  rwa [List.getElem_map, List.getElem_map] at hinj

/-- Edges have one name if they are the directions of one conflict, and else only if the names of
their templates run together. -/
theorem name_eq_iff (hn : Numbered ts) (hnames : (ts.map Transaction.name).Nodup)
    (he : e ∈ (build ts).edges) (hf : f ∈ (build ts).edges) :
    e.name = f.name ↔ e.pair = f.pair ∨ RunTogether ts e f := by
  have hbelow : ∀ {x : Edge}, x ∈ (build ts).edges →
      x.earlier.template < ts.length ∧ x.later.template < ts.length := by
    intro x hx
    obtain ⟨hsource, htarget, -⟩ := ends_of_mem_build hn hx
    rw [Edge.earlier, Edge.later]
    split
    · exact ⟨hsource, htarget⟩
    · exact ⟨htarget, hsource⟩
  obtain ⟨-, -, -, -, hename⟩ := (mem_build_edges hn).1 he
  obtain ⟨-, -, -, -, hfname⟩ := (mem_build_edges hn).1 hf
  rw [hename, hfname, nameBetween_eq, nameBetween_eq, conflictName_eq_iff,
    append_dash_append_eq_iff, templateName_inj hnames (hbelow he).1 (hbelow hf).1,
    templateName_inj hnames (hbelow he).2 (hbelow hf).2,
    Edge.pair_eq_iff (ends_of_mem_build hn he).2.2 (ends_of_mem_build hn hf).2.2, RunTogether]
  constructor
  · rintro ⟨hsame | hmoves, hearlier, hlater⟩
    · exact .inl ⟨StatementRef.eq_of_parts hsame.1 hearlier,
        StatementRef.eq_of_parts hsame.2 hlater⟩
    · exact .inr ⟨hearlier, hlater, hmoves⟩
  · rintro (⟨hearlier, hlater⟩ | ⟨hearlier, hlater, hmoves⟩)
    · rw [hearlier, hlater]
      exact ⟨.inl ⟨rfl, rfl⟩, rfl, rfl⟩
    · exact ⟨.inr hmoves, hearlier, hlater⟩

/-- Two edges of a cycle have different names or join different nodes. -/
theorem pairwise_apart {g : ConflictGraph} (hg : g.Inside) (hc : c ∈ g.cycles) :
    (c.edgesIn g).Pairwise fun e f =>
      e.name ≠ f.name ∨ s(e.source, e.target) ≠ s(f.source, f.target) := by
  obtain ⟨start, p, node, x, h, hx, -, hclose⟩ :=
    (mem_candidates_iff hg).1 (firstOfEach_subset hc)
  obtain ⟨rfl, hclosing⟩ := h.closing_ne hx hclose
  rw [edgesIn_eq (h.edgesAt_loop hx), Path.walk, Path.loop, List.pairwise_map,
    List.pairwise_reverse, List.pairwise_cons]
  constructor
  · intro y hy
    exact .inl (hclosing y hy)
  · refine (h.edges_apart.sublist (List.take_sublist _ _)).imp ?_
    intro y z hapart
    exact .inr hapart.symm

end Build

/-- In the graph of any workload that analysis accepts, two edges have one name if and only if
they are the directions of one conflict or the names of their templates run together; of the
edges of a cycle, only the latter can be. -/
theorem names_agree_iff (calls : List RegistryCall) {w : Workload}
    (h : (Registry.run calls).analyze = .ok w) :
    (∀ e ∈ w.graph.edges, ∀ f ∈ w.graph.edges, e.name = f.name ↔
      e.pair = f.pair ∨ RunTogether (Registry.run calls).templates e f) ∧
    ∀ c ∈ w.report.cycles, (c.edgesIn w.graph).Pairwise fun e f =>
      e.pair ≠ f.pair ∧ (e.name = f.name ↔ RunTogether (Registry.run calls).templates e f) := by
  obtain ⟨hnumbered, hnames, -⟩ := Registry.sound_run calls
  obtain ⟨-, hgraph, hreport, -⟩ := Registry.analyze_eq_ok h
  rw [hreport, hgraph]
  have hagree : ∀ e ∈ (build (Registry.run calls).templates).edges,
      ∀ f ∈ (build (Registry.run calls).templates).edges, e.name = f.name ↔
        e.pair = f.pair ∨ RunTogether (Registry.run calls).templates e f :=
    fun e he f hf => name_eq_iff hnumbered hnames he hf
  refine ⟨hagree, ?_⟩
  intro c hc
  refine (pairwise_apart (inside_build hnumbered) hc).imp_of_mem ?_
  intro e f he hf hapart
  have hne : e.pair ≠ f.pair := by
    intro hpair
    rcases hapart with hname | hends
    · exact hname ((hagree e (mem_of_mem_edgesIn he) f (mem_of_mem_edgesIn hf)).2
        (.inl hpair))
    · exact hends (Edge.ends_eq_of_pair_eq hpair)
  refine ⟨hne, ?_⟩
  rw [hagree e (mem_of_mem_edgesIn he) f (mem_of_mem_edgesIn hf), or_iff_right hne]

/-- Four templates that write, each in conflict with two others. -/
def hyphenated : List RegistryCall :=
  ["a", "b-c", "a-b", "c"].map .transaction ++
    [("a", "r1"), ("a", "r4"), ("b-c", "r1"), ("b-c", "r3"), ("a-b", "r2"), ("a-b", "r3"),
      ("c", "r2"), ("c", "r4")].map fun (name, relation) =>
        .statement SqlRule.identity name { kind := .write, relation }

/-- The conflict of `a` and `b-c` and the one of `a-b` and `c` have one name, and both lie on one
cycle. -/
theorem hyphenated_names_meet :
    ∃ w, (Registry.run hyphenated).analyze = .ok w ∧
      (∃ e ∈ w.graph.edges, ∃ f ∈ w.graph.edges, e.name = f.name ∧ e.pair ≠ f.pair) ∧
      ∃ c ∈ w.report.cycles, ¬((c.edgesIn w.graph).map Edge.name).Nodup := by
  refine ⟨_, rfl, ?_, ?_⟩
  · decide
  · decide

/-- They are the two conflicts whose templates run together. -/
theorem hyphenated_names_agree_iff :
    ∃ w, (Registry.run hyphenated).analyze = .ok w ∧
      ∃ e ∈ w.graph.edges, ∃ f ∈ w.graph.edges, e.pair ≠ f.pair ∧
        RunTogether (Registry.run hyphenated).templates e f := by
  obtain ⟨w, hw, e, he, f, hf, hname, hpair⟩ : ∃ w,
      (Registry.run hyphenated).analyze = .ok w ∧ ∃ e ∈ w.graph.edges, ∃ f ∈ w.graph.edges,
        e.name = f.name ∧ e.pair ≠ f.pair := ⟨_, rfl, by decide⟩
  obtain ⟨hagree, -⟩ := names_agree_iff hyphenated hw
  exact ⟨w, hw, e, he, f, hf, hpair, ((hagree e he f hf).1 hname).resolve_left hpair⟩

end ConflictGraph

end LiveIsolation
