/-
  The program, from the graph to the output.

  * `BoostGraph.Path` and `BoostTimedAutomaton.Run` are the paths and the timed runs
    of a graph, `Accepts` and `TimedAccepts` the words they accept;
  * `mem_eval_convBoostNFA_iff`, `mem_configsAfter_convBoostTA_iff`: the automata that
    are made for a graph have these paths and runs;
  * `sixDecimals_eq_iff`: the printing rounds no number that has six decimals;
  * `main_untimed`: the untimed program preserves the matches of the graph;
  * `main_timed`: the timed program does, in both time modes and up to the printing, if
    the clocks of the graph fit;
  * `main_refines`: the timed program lets no event pass that the untimed one masks.
-/
import MooreFilter.Lib.Condense
import MooreFilter.Main
import MooreFilter.Proof.AbsTime
import MooreFilter.Proof.ClockIndices
import MooreFilter.Proof.TimedMatches

namespace MooreFilter

open Masking (segment)
open Stamps (condense)

/-! ## The states of a graph -/

/-- The states of the vertices are initial and accepting as these are. -/
theorem convStates_spec (vertices : List BoostTAState) (p : Ptr) :
    (p ∈ (convStates vertices).initialStates ↔ ∃ s, vertices[p]? = some s ∧ s.isInit = true) ∧
      ∀ s, vertices[p]? = some s → (convStates vertices).isMatch p = s.isMatch := by
  induction vertices using List.reverseRecOn with
  | nil => simp [convStates]
  | append_singleton vertices v ih =>
    obtain ⟨hS, -⟩ := statesFor_convStates vertices
    have hconv : convStates (vertices ++ [v]) = addVertex (convStates vertices) v := by
      unfold convStates
      rw [List.foldl_append]; rfl
    have hinit : ∀ q, q ∈ (addVertex (convStates vertices) v).initialStates ↔
        q ∈ (convStates vertices).initialStates ∨ v.isInit = true ∧ q = vertices.length := by
      intro q
      change q ∈ (if v.isInit then (convStates vertices).initialStates ++
        [(convStates vertices).heap.size] else (convStates vertices).initialStates) ↔ _
      rw [hS.size]
      split_ifs with h <;> simp [h]
    have hmatch : (addVertex (convStates vertices) v).isMatch p =
        if p = vertices.length then v.isMatch else (convStates vertices).isMatch p := by
      change (Function.update (convStates vertices).heap.cell (convStates vertices).heap.size _
        p).isMatch = _
      rw [hS.size, Function.update_apply]
      split_ifs <;> rfl
    rw [hconv, hinit, hmatch, ih.1]
    rcases lt_trichotomy p vertices.length with hp | rfl | hp
    · rw [List.getElem?_append_left hp, if_neg hp.ne]
      exact ⟨by simp [hp.ne], ih.2⟩
    · rw [List.getElem?_append_right le_rfl, Nat.sub_self, if_pos rfl]
      simp
    · have hlen : (vertices ++ [v]).length ≤ p := by
        rw [List.length_append, List.length_singleton]; exact Nat.succ_le_of_lt hp
      rw [List.getElem?_eq_none hp.le, List.getElem?_eq_none hlen]
      simp [hp.ne']

variable {G : BoostTimedAutomaton}

/-- The second loop leaves the states as they are. -/
theorem convLoop_states (G : BoostTimedAutomaton) :
    (convLoop G).1.initialStates = (convStates G.vertices).initialStates ∧
      ∀ p, (convLoop G).1.isMatch p = (convStates G.vertices).isMatch p := by
  unfold convLoop
  rw [← List.foldl_flatMap]
  induction (List.range G.vertices.length).flatMap G.outEdges using List.reverseRecOn with
  | nil => exact ⟨rfl, fun _ => rfl⟩
  | append_singleton es e ih =>
    rw [List.foldl_append]
    refine ⟨ih.1, fun p => Eq.trans ?_ (ih.2 p)⟩
    refine isMatch_write ?_ p
    rfl

theorem mem_initialStates_convBoostTA {v : ℕ} : v ∈ (convBoostTA G).initialStates ↔
    ∃ s, G.vertices[v]? = some s ∧ s.isInit = true := by
  rw [← (convStates_spec G.vertices v).1, ← (convLoop_states G).1]; rfl

theorem isMatch_convBoostTA {v : ℕ} {s : BoostTAState} (hs : G.vertices[v]? = some s) :
    (convBoostTA G).isMatch v = s.isMatch :=
  ((convLoop_states G).2 v).trans ((convStates_spec G.vertices v).2 s hs)

/-- The transitions of a state are the edges that leave its vertex. -/
theorem mem_next_convBoostTA {v : ℕ} {c : UInt8} {tr : TATransition} :
    tr ∈ (convBoostTA G).next v c ↔
      ∃ e ∈ G.edges, e.source = v ∧ e.property.c = c ∧ e.transition = tr := by
  rw [next_convBoostTA, List.mem_map]
  simp only [List.mem_filter, BoostGraph.mem_outEdges, decide_eq_true_eq, and_assoc]

/-! ## Paths -/

namespace BoostGraph
variable {ε : Type}

/-- Edges with the labels lead from an initial vertex to the vertex. -/
inductive Path (G : BoostGraph ε) (label : ε → UInt8) : List UInt8 → ℕ → Prop
  | nil {v s} : G.vertices[v]? = some s → s.isInit = true → Path G label [] v
  | snoc {u e} : Path G label u e.source → e ∈ G.edges →
      Path G label (u ++ [label e.property]) e.target

/-- A path with the labels leads to an accepting vertex. -/
def Accepts (G : BoostGraph ε) (label : ε → UInt8) (u : List UInt8) : Prop :=
  ∃ v s, G.Path label u v ∧ G.vertices[v]? = some s ∧ s.isMatch = true

theorem Path.lt {G : BoostGraph ε} {label : ε → UInt8} {u : List UInt8} {v : ℕ}
    (h : G.Path label u v) : v < G.vertices.length := by
  cases h with
  | nil hv _ => exact (List.getElem?_eq_some_iff.1 hv).1
  | snoc _ he => exact G.target_lt _ he

end BoostGraph

open BoostGraph (Path Accepts)

/-- The paths of the NFA are those of the graph. -/
theorem mem_eval_convBoostNFA_iff {u : List UInt8} {v : ℕ} :
    v ∈ (convBoostNFA G).toNFA.eval u ↔ G.Path BoostTATransition.c u v := by
  have hE := erased_nfaLoop G
  induction u using List.reverseRecOn generalizing v with
  | nil =>
    have hinit : v ∈ (convBoostNFA G).toNFA.eval [] ↔ v ∈ (convBoostTA G).initialStates := by
      change v ∈ (nfaLoop G).initialStates ↔ _
      rw [hE.initialStates]; rfl
    rw [hinit, mem_initialStates_convBoostTA]
    constructor
    · rintro ⟨s, hs, hi⟩; exact .nil hs hi
    · intro h
      generalize hu : ([] : List UInt8) = u at h
      cases h with
      | nil hs hi => exact ⟨_, hs, hi⟩
      | snoc => simp at hu
  | append_singleton u c ih =>
    rw [NFA.eval_append_singleton, NFA.mem_stepSet]
    have hstep : ∀ s, v ∈ (convBoostNFA G).toNFA.step s c ↔
        ∃ e ∈ G.edges, e.source = s ∧ e.property.c = c ∧ e.target = v := by
      intro s
      change v ∈ ((nfaLoop G).next s c).map lock ↔ _
      rw [hE.next, List.map_map, List.mem_map]
      constructor
      · rintro ⟨tr, htr, rfl⟩
        obtain ⟨e, he, hs, hc, rfl⟩ := mem_next_convBoostTA.1 htr
        exact ⟨e, he, hs, hc, rfl⟩
      · rintro ⟨e, he, hs, hc, rfl⟩
        exact ⟨_, mem_next_convBoostTA.2 ⟨e, he, hs, hc, rfl⟩, rfl⟩
    constructor
    · rintro ⟨s, hs, hv⟩
      obtain ⟨e, he, rfl, rfl, rfl⟩ := (hstep s).1 hv
      exact (ih.1 hs).snoc he
    · intro h
      generalize hw : u ++ [c] = w at h
      cases h with
      | nil => simp at hw
      | @snoc u' e hu he =>
        obtain ⟨rfl, hc⟩ := List.append_inj' hw rfl
        exact ⟨e.source, ih.2 hu, (hstep _).2 ⟨e, he, rfl, (List.singleton_inj.1 hc).symm, rfl⟩⟩

theorem mem_accepts_convBoostNFA_iff {u : List UInt8} :
    u ∈ (convBoostNFA G).toNFA.accepts ↔ G.Accepts BoostTATransition.c u := by
  have hmatch : ∀ {v s}, G.vertices[v]? = some s → ((nfaLoop G).isMatch v = true ↔
      s.isMatch = true) := by
    intro v s hs
    rw [(erased_nfaLoop G).isMatch, ← isMatch_convBoostTA hs]; rfl
  constructor
  · rintro ⟨v, hacc, hv⟩
    have hpath := mem_eval_convBoostNFA_iff.1 hv
    have hs := List.getElem?_eq_getElem hpath.lt
    exact ⟨v, _, hpath, hs, (hmatch hs).1 hacc⟩
  · rintro ⟨v, s, hpath, hs, hacc⟩
    exact ⟨v, (hmatch hs).2 hacc, mem_eval_convBoostNFA_iff.2 hpath⟩

/-- Reading the attributes changes neither the edges nor their labels. -/
theorem path_parseBoostTA_iff {D : DotGraph} (h : parseBoostTA D = some G) {u : List UInt8}
    {v : ℕ} : D.Path DotTransition.label u v ↔ G.Path BoostTATransition.c u v := by
  obtain ⟨hvertices, hedges⟩ := parseBoostTA_eq_some h
  constructor
  · intro hp
    induction hp with
    | nil hs hi => exact .nil (hvertices ▸ hs) hi
    | @snoc u e _ he ih =>
      obtain ⟨b, hb, hread⟩ := Related.exists_right hedges e he
      obtain ⟨hsource, htarget, hlabel, -⟩ := readEdge_eq_some.1 hread
      rw [← hlabel, ← htarget]
      exact .snoc (hsource ▸ ih) hb
  · intro hp
    induction hp with
    | nil hs hi => exact .nil (hvertices ▸ hs) hi
    | @snoc u b _ hb ih =>
      obtain ⟨e, he, hread⟩ := Related.exists_left hedges b hb
      obtain ⟨hsource, htarget, hlabel, -⟩ := readEdge_eq_some.1 hread
      rw [hlabel, htarget]
      exact .snoc (hsource ▸ ih) he

theorem accepts_parseBoostTA_iff {D : DotGraph} (h : parseBoostTA D = some G) {u : List UInt8} :
    D.Accepts DotTransition.label u ↔ G.Accepts BoostTATransition.c u := by
  unfold Accepts
  rw [(parseBoostTA_eq_some h).1]
  exact exists_congr fun v => exists_congr fun s => and_congr_left fun _ =>
    path_parseBoostTA_iff h

/-- An edge of the graph that is made for `D` has a label of `D`. -/
theorem exists_label_eq {D : DotGraph} (h : parseBoostTA D = some G) {b : Edge BoostTATransition}
    (hb : b ∈ G.edges) : ∃ e ∈ D.edges, b.property.c = e.property.label := by
  obtain ⟨e, he, hread⟩ := Related.exists_left (parseBoostTA_eq_some h).2 b hb
  exact ⟨e, he, (readEdge_eq_some.1 hread).2.2.1⟩

/-- Without an edge on the mask character neither automaton has a transition on it. -/
theorem noMaskLabel_of_label_ne {D : DotGraph} (h : parseBoostTA D = some G)
    (hlabel : ∀ e ∈ D.edges, e.property.label ≠ '_'.toUInt8) :
    (convBoostTA G).NoMaskLabel ∧ (convBoostNFA G).NoMaskLabel := by
  have hTA : ∀ s, (convBoostTA G).next s '_'.toUInt8 = [] := by
    intro s
    refine List.eq_nil_iff_forall_not_mem.2 fun tr htr => ?_
    obtain ⟨b, hb, -, hc, -⟩ := mem_next_convBoostTA.1 htr
    obtain ⟨e, he, hlab⟩ := exists_label_eq h hb
    exact hlabel e he (hlab.symm.trans hc)
  refine ⟨fun s _ => hTA s, fun s _ => ?_⟩
  refine ((erased_nfaLoop G).next s _).trans (List.map_eq_nil_iff.2 (hTA s))

/-! ## Timed runs -/

/-- The runs of a graph: edges from an initial vertex, whose guards the clocks satisfy
    after the delays. -/
inductive BoostGraph.Run (G : BoostTimedAutomaton) :
    List (UInt8 × ℚ) → ℕ → (ClockVariables → ℚ) → Prop
  | nil {v s} : G.vertices[v]? = some s → s.isInit = true → Run G [] v fun _ => 0
  | snoc {w u e d} : Run G w e.source u → e ∈ G.edges →
      (∀ g ∈ e.property.guard, g.satisfy (u g.x + d) = true) →
      Run G (w ++ [(e.property.c, d)]) e.target
        (TimedAutomaton.resetAll e.property.resetVars fun x => u x + d)

/-- A run over the word leads to an accepting vertex. -/
def BoostGraph.TimedAccepts (G : BoostTimedAutomaton) (w : List (UInt8 × ℚ)) : Prop :=
  ∃ v u s, G.Run w v u ∧ G.vertices[v]? = some s ∧ s.isMatch = true

/-- The runs of the timed automaton are those of the graph. -/
theorem mem_configsAfter_convBoostTA_iff {w : List (UInt8 × ℚ)} {q : TimedAutomaton.Config} :
    q ∈ (convBoostTA G).configsAfter w ↔ G.Run w q.1 q.2 := by
  induction w using List.reverseRecOn generalizing q with
  | nil =>
    constructor
    · intro hq
      obtain ⟨v, hv, rfl⟩ := List.mem_map.1 hq
      obtain ⟨s, hs, hi⟩ := mem_initialStates_convBoostTA.1 hv
      exact .nil hs hi
    · intro h
      obtain ⟨v, u⟩ := q
      generalize hw : ([] : List (UInt8 × ℚ)) = w at h
      cases h with
      | nil hs hi => exact List.mem_map.2 ⟨v, mem_initialStates_convBoostTA.2 ⟨_, hs, hi⟩, rfl⟩
      | snoc => simp at hw
  | append_singleton w c ih =>
    rw [TimedAutomaton.mem_configsAfter_append]
    constructor
    · rintro ⟨p, hp, tr, htr, hg, rfl⟩
      obtain ⟨e, he, hsource, hc, rfl⟩ := mem_next_convBoostTA.1 htr
      have hrun := ih.1 hp
      rw [← hsource] at hrun
      have h := hrun.snoc he hg
      rwa [hc] at h
    · intro h
      obtain ⟨v, u'⟩ := q
      generalize hw : w ++ [c] = w' at h
      cases h with
      | nil => simp at hw
      | @snoc w' u e d hrun he hg =>
        obtain ⟨rfl, hc⟩ := List.append_inj' hw rfl
        obtain rfl := List.singleton_inj.1 hc
        exact ⟨(e.source, u), ih.2 hrun, e.transition,
          mem_next_convBoostTA.2 ⟨e, he, rfl, rfl, rfl⟩, hg, rfl⟩

theorem isMember_convBoostTA_iff {w : List (UInt8 × ℚ)} :
    (convBoostTA G).isMember (timestamps w) = true ↔ G.TimedAccepts w := by
  rw [TimedAutomaton.isMember_timestamps, List.any_eq_true]
  constructor
  · rintro ⟨q, hq, hacc⟩
    have hlt : q.1 < G.vertices.length := by
      have h := TimedAutomaton.mem_states_of_mem_configsAfter hq
      change q.1 ∈ (convLoop G).1.states at h
      rwa [(edgesAdded_convLoop G).statesFor.states, List.mem_range] at h
    have hs := List.getElem?_eq_getElem hlt
    exact ⟨q.1, q.2, _, mem_configsAfter_convBoostTA_iff.1 hq, hs,
      (isMatch_convBoostTA hs).symm.trans hacc⟩
  · rintro ⟨v, u, s, hrun, hs, hacc⟩
    exact ⟨(v, u), mem_configsAfter_convBoostTA_iff.2 hrun, (isMatch_convBoostTA hs).trans hacc⟩

/-! ## The output -/

theorem roundEven_intCast (k : ℤ) : roundEven k = k := by
  unfold roundEven
  dsimp only
  rw [Rat.floor_intCast, sub_self]
  exact if_pos (by norm_num)

/-- The numbers with six decimals are printed as they are, and no others. -/
theorem sixDecimals_eq_iff {x : ℚ} : sixDecimals x = x ↔ ∃ k : ℤ, x = k / 10 ^ 6 := by
  constructor
  · exact fun h => ⟨_, h.symm⟩
  · rintro ⟨k, rfl⟩
    rw [sixDecimals, div_mul_cancel₀ _ (by norm_num), roundEven_intCast]

theorem printLine_eq_iff {c : UInt8 × ℚ} : printLine c = c ↔ sixDecimals c.2 = c.2 :=
  ⟨congrArg Prod.snd, fun h => Prod.ext rfl h⟩

/-- Nothing is rounded if the numbers are those of lines with six decimals. -/
theorem map_printLine_eq {l l' : List (UInt8 × ℚ)} (h : ∀ c ∈ l, c.2 ∈ l'.map Prod.snd)
    (hl' : ∀ c ∈ l', ∃ k : ℤ, c.2 = k / 10 ^ 6) : l.map printLine = l := by
  refine (List.map_congr_left fun c hc => ?_).trans (List.map_id l)
  obtain ⟨c', hc', he⟩ := List.mem_map.1 (h c hc)
  exact printLine_eq_iff.2 (sixDecimals_eq_iff.2 (he ▸ hl' c' hc'))

/-- The options name a file, and ask for no message. -/
structure Options.Runs (opts : Options) (timed : Bool) : Prop where
  automatonFileName : opts.automatonFileName.isEmpty = false
  help : opts.help = false
  version : opts.version = false
  timed_eq : opts.timed = timed
  untimed : timed = true → opts.untimed = false

theorem dispatch_eq {β : Type} {files : String → Option DotGraph} {opts : Options} {t : Bool}
    (hopts : opts.Runs t) {D : DotGraph} (hfile : files opts.automatonFileName = some D)
    (hD : parseBoostTA D = some G) (timed : TimedAutomaton → Option β)
    (untimed : FiniteAutomaton NFATransition → Option β) :
    dispatch files opts timed untimed =
      if t then (timed (convBoostTA G)).map .run else (untimed (convBoostNFA G)).map .run := by
  obtain ⟨hname, hhelp, hversion, rfl, huntimed⟩ := hopts
  unfold dispatch
  rw [hname, hhelp, hversion, hfile, Option.bind_some, hD]
  cases ht : opts.timed with
  | false => rfl
  | true => rw [huntimed ht]; rfl

section
variable {files : String → Option DotGraph} {N : ℕ} {gae : BitVec N → ℕ → Bool × BitVec N}
  {addr : Ptr ↪ ℕ} {order : Ptr → UInt8 → ℕ} {fuel : ℕ} {opts : Options} {D : DotGraph}
  {letters : List UInt8}
  {events : List (UInt8 × ℚ)} {r : Outcome Lines}

theorem main_eq_some_untimed (hopts : opts.Runs false)
    (hfile : files opts.automatonFileName = some D) (hD : parseBoostTA D = some G) :
    main files gae addr order fuel opts letters events = some r ↔
      ∃ M, constructFilter addr N (convBoostNFA G).toAutomaton fuel = some M ∧
        r = .run (.letters (filter gae M letters)) := by
  have hmain : main files gae addr order fuel opts letters events =
      ((constructFilter addr N (convBoostNFA G).toAutomaton fuel).map fun M =>
        Lines.letters (filter gae M letters)).map .run := dispatch_eq hopts hfile hD _ _
  rw [hmain, Option.map_map, Option.map_eq_some_iff]
  exact exists_congr fun _ => and_congr_right fun _ => eq_comm

theorem main_eq_some_timed (hopts : opts.Runs true)
    (hfile : files opts.automatonFileName = some D) (hD : parseBoostTA D = some G) :
    main files gae addr order fuel opts letters events = some r ↔
      ∃ T, (convBoostTA G).constructFilter addr order N fuel = some T ∧
        r = .run (.events ((timedFilter gae opts.abs T events).map printLine)) := by
  have hmain : main files gae addr order fuel opts letters events =
      (((convBoostTA G).constructFilter addr order N fuel).map fun T =>
        Lines.events ((timedFilter gae opts.abs T events).map printLine)).map .run :=
    dispatch_eq hopts hfile hD _ _
  rw [hmain, Option.map_map, Option.map_eq_some_iff]
  exact exists_congr fun _ => and_congr_right fun _ => eq_comm

end

/-- **The untimed program** ends, and its output has the matches of the graph. -/
theorem main_untimed (files : String → Option DotGraph) (N : ℕ) (hN : 0 < N)
    (gae : BitVec N → ℕ → Bool × BitVec N) (hgae : ∀ n ≤ N, Enables gae n) (addr : Ptr ↪ ℕ)
    (order : Ptr → UInt8 → ℕ) (opts : Options) (hopts : opts.Runs false) (D : DotGraph)
    (hfile : files opts.automatonFileName = some D) (G : BoostTimedAutomaton)
    (hD : parseBoostTA D = some G) (hlabel : ∀ e ∈ D.edges, e.property.label ≠ '_'.toUInt8)
    (letters : List UInt8) (events : List (UInt8 × ℚ)) :
    (∃ fuel r, main files gae addr order fuel opts letters events = some r) ∧
      ∀ fuel r, main files gae addr order fuel opts letters events = some r →
        ∃ out, r = .run (.letters out) ∧
          KeepsMatches (D.Accepts DotTransition.label) letters out := by
  refine ⟨?_, fun fuel r hr => ?_⟩
  · obtain ⟨fuel, M, hM⟩ := constructFilter_terminates (A := convBoostNFA G) hN addr
    exact ⟨fuel, _, (main_eq_some_untimed hopts hfile hD).2 ⟨M, hM, rfl⟩⟩
  · obtain ⟨M, hM, rfl⟩ := (main_eq_some_untimed hopts hfile hD).1 hr
    have hmask := (noMaskLabel_of_label_ne hD hlabel).2
    have h := isMasked_of_constructFilter hmask hN hgae hM letters
    have hacc : ∀ u, D.Accepts DotTransition.label u ↔ u ∈ (convBoostNFA G).toNFA.accepts :=
      fun u => (accepts_parseBoostTA_iff hD).trans mem_accepts_convBoostNFA_iff.symm
    refine ⟨_, rfl, h.length_eq, fun i j hij hj => ?_, fun i j hij hj hP => ?_⟩
    · rw [hacc, hacc]
      exact h.accepts_iff hN (fun u _ => eval_mask hmask u) hij hj
    · exact h.segment_eq hN hij hj ((hacc _).1 hP)

/-- One accepting vertex, and an edge from another one. -/
def apartGraph : DotGraph where
  vertices := [⟨true, true⟩, ⟨false, false⟩]
  edges := [⟨1, 0, ⟨97, braces ["0".toList], braces ["x0 < 1".toList]⟩⟩]
  source_lt := by simp
  target_lt := by simp

theorem parseBoostTA_apartGraph : ∃ G, parseBoostTA apartGraph = some G ∧
    ∀ e ∈ G.edges, ∀ g ∈ e.property.guard, ¬ g.Overflows := by
  obtain ⟨G, hG, hover⟩ := Option.map_eq_some_iff.1 (by decide +kernel :
    (parseBoostTA apartGraph).map (fun G =>
      decide (∀ e ∈ G.edges, ∀ g ∈ e.property.guard, ¬ g.Overflows)) = some true)
  exact ⟨G, hG, of_decide_eq_true hover⟩

theorem apartGraph_label : ∀ e ∈ apartGraph.edges, e.property.label ≠ '_'.toUInt8 := by
  decide +kernel

/-- The untimed program on this graph. -/
theorem main_untimed_apartGraph : ∃ fuel r,
    main (fun _ => some apartGraph) (getAndEnable (N := 1) x86Mask) (Function.Embedding.refl ℕ)
      letterOrder fuel ⟨"nfa.dot", false, false, false, false, false⟩ [97] [] = some r := by
  obtain ⟨G, hG, -⟩ := parseBoostTA_apartGraph
  exact (main_untimed (fun _ => some apartGraph) 1 one_pos (getAndEnable x86Mask)
    enables_x86Mask_one (Function.Embedding.refl ℕ) letterOrder
    ⟨"nfa.dot", false, false, false, false, false⟩
    ⟨by decide, rfl, rfl, rfl, fun h => absurd h (by decide)⟩ apartGraph rfl G hG apartGraph_label
    [97] []).1

section
variable {files : String → Option DotGraph} {N : ℕ} {gae : BitVec N → ℕ → Bool × BitVec N}
  {addr : Ptr ↪ ℕ} {order : Ptr → UInt8 → ℕ} {fuel : ℕ} {opts : Options} {D : DotGraph}
  {letters : List UInt8}
  {events w : List (UInt8 × ℚ)} {r : Outcome Lines}

/-- The lines that the timed program makes of an output. -/
def timedLines (abs : Bool) (out events : List (UInt8 × ℚ)) : List (UInt8 × ℚ) :=
  if abs then condense isMasked (stamped out events) else out

/-- Their numbers are those of the input. -/
theorem snd_mem_of_mem_timedLines {abs : Bool} {out : List (UInt8 × ℚ)}
    (hw : w = if abs then abs2rel events else events) (hout : out.map Prod.snd = w.map Prod.snd)
    {c : UInt8 × ℚ} (hc : c ∈ timedLines abs out events) : c.2 ∈ events.map Prod.snd := by
  unfold timedLines at hc
  cases abs with
  | false =>
    rw [show w = events from hw] at hout
    rw [← hout]
    exact List.mem_map_of_mem hc
  | true =>
    have hmem : c ∈ stamped out events := Stamps.mem_of_mem_condense hc
    obtain ⟨p, hp⟩ := List.getElem?_of_mem hmem
    obtain ⟨o, e, -, he, rfl⟩ := List.getElem?_zipWith_eq_some.1 hp
    have hsnd : (if isMasked o then ('_'.toUInt8, e.2) else e).2 = e.2 := by split_ifs <;> rfl
    rw [hsnd]
    exact List.mem_map_of_mem (List.mem_of_getElem? he)

/-- What the timed program prints, when it ends. -/
theorem keepsMatches_of_main_timed (hN : 0 < N) (hgae : ∀ n ≤ N, Enables gae n)
    (hopts : opts.Runs true) (hfile : files opts.automatonFileName = some D)
    (hD : parseBoostTA D = some G) (hlabel : ∀ e ∈ D.edges, e.property.label ≠ '_'.toUInt8)
    (hdec : ∀ e ∈ D.edges, e.property.Decimal) (hfit : ClocksFit D)
    (hover : ∀ e ∈ G.edges, ∀ g ∈ e.property.guard, ¬ g.Overflows)
    (hw : w = if opts.abs then abs2rel events else events) (hpos : ∀ c ∈ w, 0 < c.2)
    (hr : main files gae addr order fuel opts letters events = some r) :
    ∃ out, KeepsMatches G.TimedAccepts w out ∧
      r = .run (.events ((timedLines opts.abs out events).map printLine)) ∧
      ((∀ c ∈ events, ∃ k : ℤ, c.2 = k / 10 ^ 6) →
        (timedLines opts.abs out events).map printLine = timedLines opts.abs out events) := by
  obtain ⟨T, hT, rfl⟩ := (main_eq_some_timed hopts hfile hD).1 hr
  have hmask := (noMaskLabel_of_label_ne hD hlabel).1
  have hfresh : T.IsFresh := by
    obtain ⟨B, -, hT⟩ := Option.bind_eq_some_iff.1 hT
    obtain ⟨M, -, hT⟩ := Option.bind_eq_some_iff.1 hT
    obtain ⟨b, -, rfl⟩ := Option.map_eq_some_iff.1 hT
    exact ⟨rfl, rfl⟩
  obtain ⟨hdelays, hkeep⟩ := filterPreserves_of_reachedFit hmask (hfit.reachedFit hD hdec hover) hN
    hgae hT w hpos
  simp only [isMember_convBoostTA_iff] at hkeep
  refine ⟨filter gae T w, hkeep, ?_, map_printLine_eq fun c hc =>
    snd_mem_of_mem_timedLines hw hdelays hc⟩
  refine congrArg (fun l : List (UInt8 × ℚ) => Outcome.run (Lines.events (l.map printLine))) ?_
  subst hw
  cases opts.abs with
  | false => exact timedFilter_false events
  | true =>
    change timedFilter gae true T events =
      condense isMasked (stamped (filter gae T (abs2rel events)) events)
    rw [← toStamps_filter hN hfresh, timedFilter, filterWith_eq, events_getOne_true,
      printed_putOne_true, abs2rel_eq]

end

/-- **The timed program**: if the clocks of the graph fit and no bound overflows, the output
    has the timed matches of the graph, and in the absolute time mode its lines are those of
    this output with the time stamps of the input.  The printing rounds no number if
    those of the input have six decimals. -/
theorem main_timed (files : String → Option DotGraph) (N : ℕ) (hN : 0 < N)
    (gae : BitVec N → ℕ → Bool × BitVec N) (hgae : ∀ n ≤ N, Enables gae n) (addr : Ptr ↪ ℕ)
    (order : Ptr → UInt8 → ℕ) (opts : Options) (hopts : opts.Runs true) (D : DotGraph)
    (hfile : files opts.automatonFileName = some D) (G : BoostTimedAutomaton)
    (hD : parseBoostTA D = some G) (hlabel : ∀ e ∈ D.edges, e.property.label ≠ '_'.toUInt8)
    (hdec : ∀ e ∈ D.edges, e.property.Decimal) (hfit : ClocksFit D)
    (hover : ∀ e ∈ G.edges, ∀ g ∈ e.property.guard, ¬ g.Overflows) (letters : List UInt8)
    (events w : List (UInt8 × ℚ)) (hw : w = if opts.abs then abs2rel events else events)
    (hpos : ∀ c ∈ w, 0 < c.2) (fuel : ℕ) (r : Outcome Lines)
    (hr : main files gae addr order fuel opts letters events = some r) :
    ∃ out, KeepsMatches G.TimedAccepts w out ∧
      r = .run (.events ((timedLines opts.abs out events).map printLine)) ∧
      ((∀ c ∈ events, ∃ k : ℤ, c.2 = k / 10 ^ 6) →
        (timedLines opts.abs out events).map printLine = timedLines opts.abs out events) :=
  keepsMatches_of_main_timed hN hgae hopts hfile hD hlabel hdec hfit hover hw hpos hr

/-- The timed program on the graph, in the absolute time mode. -/
theorem main_timed_apartGraph : ∃ G r, parseBoostTA apartGraph = some G ∧
    main (fun _ => some apartGraph) (getAndEnable (N := 1) x86Mask) (Function.Embedding.refl ℕ)
      letterOrder 5 ⟨"ta.dot", false, false, true, false, true⟩ [] [(97, 2), (97, 5)] = some r ∧
    ∃ out, KeepsMatches G.TimedAccepts (abs2rel [(97, 2), (97, 5)]) out ∧
      r = .run (.events (condense isMasked (stamped out [(97, 2), (97, 5)]))) := by
  obtain ⟨G, hG, hover⟩ := parseBoostTA_apartGraph
  obtain ⟨r, hr⟩ : ∃ r, main (fun _ => some apartGraph) (getAndEnable (N := 1) x86Mask)
      (Function.Embedding.refl ℕ) letterOrder 5 ⟨"ta.dot", false, false, true, false, true⟩ []
      [(97, 2), (97, 5)] = some r := Option.isSome_iff_exists.1 (by decide +kernel)
  obtain ⟨out, hkeep, hout, hexact⟩ := main_timed (fun _ => some apartGraph) 1 one_pos
    (getAndEnable x86Mask) enables_x86Mask_one (Function.Embedding.refl ℕ) letterOrder
    ⟨"ta.dot", false, false, true, false, true⟩ ⟨by decide, rfl, rfl, rfl, fun _ => rfl⟩ apartGraph
    rfl G hG apartGraph_label (by decide +kernel)
    ⟨by decide +kernel, by decide +kernel, by decide +kernel⟩ hover [] [(97, 2), (97, 5)] _ rfl
    (by decide +kernel) 5 r hr
  have hsix : ∀ c ∈ [((97 : UInt8), (2 : ℚ)), (97, 5)], sixDecimals c.2 = c.2 := by
    decide +kernel
  rw [hexact fun c hc => sixDecimals_eq_iff.1 (hsix c hc)] at hout
  exact ⟨G, r, hG, hr, out, hkeep, hout⟩

/-! ## The two programs -/

/-- The NFA that is made for a graph is its timed automaton without guards and resets. -/
theorem erases_convBoostNFA (G : BoostTimedAutomaton) :
    Erases (convBoostTA G).toFiniteAutomaton (convBoostNFA G) where
  initialStates := (erased_nfaLoop G).initialStates.symm
  isMatch s _ := ((erased_nfaLoop G).isMatch s).symm
  next s _ c := ((erased_nfaLoop G).next s c).symm

/-- An event that is printed with its own letter was let pass, or masked to itself. -/
theorem eq_of_printLine_eq {c d : UInt8 × ℚ} (hd : d = c ∨ d = mask c)
    (h : printLine d = printLine c) : d = c := by
  rcases hd with rfl | rfl
  · rfl
  · have hfst : '_'.toUInt8 = c.1 := congrArg Prod.fst h
    exact Prod.ext hfst rfl

/-- **The timed program refines the untimed one**: of one graph, an event that the timed
    program prints with its letter has a letter that the untimed program prints as it was
    read, when this reads the letters of the events. -/
theorem main_refines (files : String → Option DotGraph) (N : ℕ) (hN : 0 < N)
    (gae : BitVec N → ℕ → Bool × BitVec N) (hgae : ∀ n ≤ N, Enables gae n) (addr : Ptr ↪ ℕ)
    (order : Ptr → UInt8 → ℕ) (timedOpts opts : Options) (htimed : timedOpts.Runs true)
    (habs : timedOpts.abs = false) (hopts : opts.Runs false) (D : DotGraph)
    (hfile : files timedOpts.automatonFileName = some D)
    (hfile' : files opts.automatonFileName = some D) (G : BoostTimedAutomaton)
    (hD : parseBoostTA D = some G) (hlabel : ∀ e ∈ D.edges, e.property.label ≠ '_'.toUInt8)
    (hdec : ∀ e ∈ D.edges, e.property.Decimal) (hfit : ClocksFit D)
    (events : List (UInt8 × ℚ)) (hpos : ∀ c ∈ events, 0 < c.2) (fuel fuel' : ℕ)
    (r r' : Outcome Lines) (hr : main files gae addr order fuel timedOpts [] events = some r)
    (hr' : main files gae addr order fuel' opts (events.map Prod.fst) [] = some r') :
    ∃ out out', r = .run (.events out) ∧ r' = .run (.letters out') ∧
      ∀ (p : ℕ) (c : UInt8 × ℚ), events[p]? = some c → out[p]? = some (printLine c) →
        out'[p]? = some c.1 := by
  obtain ⟨T, hT, rfl⟩ := (main_eq_some_timed htimed hfile hD).1 hr
  obtain ⟨M, hM, rfl⟩ := (main_eq_some_untimed hopts hfile' hD).1 hr'
  refine ⟨(filter gae T events).map printLine, _, by rw [habs, timedFilter_false], rfl, ?_⟩
  obtain ⟨hTA, hA⟩ := noMaskLabel_of_label_ne hD hlabel
  intro p c hc hp
  have hf : (convBoostTA G).IsFilter N (filter gae T) :=
    ⟨gae, addr, order, fuel, T, hgae, ⟨hfit.buildable hD hdec, hT⟩, rfl⟩
  refine events_pass hTA hA (erases_convBoostNFA G) hN hf ⟨gae, addr, fuel', M, hgae, hM, rfl⟩
    hpos p c hc ?_
  rw [List.getElem?_map, Option.map_eq_some_iff] at hp
  obtain ⟨d, hd, hprint⟩ := hp
  have hor := (hf.isMasked hTA hN hpos).getElem?_eq_or p
  rw [hd, hc, Option.map_some, Option.some.injEq, Option.some.injEq] at hor
  rw [hd, eq_of_printLine_eq hor hprint]

/-- Both programs on the graph. -/
theorem main_refines_apartGraph : ∃ r r' out out',
    main (fun _ => some apartGraph) (getAndEnable (N := 1) x86Mask) (Function.Embedding.refl ℕ)
      letterOrder 5 ⟨"ta.dot", false, false, false, false, true⟩ [] [(97, 2), (97, 3)] = some r ∧
    main (fun _ => some apartGraph) (getAndEnable (N := 1) x86Mask) (Function.Embedding.refl ℕ)
      letterOrder 5 ⟨"nfa.dot", false, false, false, false, false⟩ [97, 97] [] = some r' ∧
    r = .run (.events out) ∧ r' = .run (.letters out') ∧
    ∀ (p : ℕ) (c : UInt8 × ℚ), [((97 : UInt8), (2 : ℚ)), (97, 3)][p]? = some c →
      out[p]? = some (printLine c) → out'[p]? = some c.1 := by
  obtain ⟨G, hG, -⟩ := parseBoostTA_apartGraph
  obtain ⟨r, hr⟩ : ∃ r, main (fun _ => some apartGraph) (getAndEnable (N := 1) x86Mask)
      (Function.Embedding.refl ℕ) letterOrder 5 ⟨"ta.dot", false, false, false, false, true⟩ []
      [(97, 2), (97, 3)] = some r := Option.isSome_iff_exists.1 (by decide +kernel)
  obtain ⟨r', hr'⟩ : ∃ r', main (fun _ => some apartGraph) (getAndEnable (N := 1) x86Mask)
      (Function.Embedding.refl ℕ) letterOrder 5 ⟨"nfa.dot", false, false, false, false, false⟩
      [97, 97] [] = some r' := Option.isSome_iff_exists.1 (by decide +kernel)
  obtain ⟨out, out', h⟩ := main_refines (fun _ => some apartGraph) 1 one_pos (getAndEnable x86Mask)
    enables_x86Mask_one (Function.Embedding.refl ℕ) letterOrder
    ⟨"ta.dot", false, false, false, false, true⟩ ⟨"nfa.dot", false, false, false, false, false⟩
    ⟨by decide, rfl, rfl, rfl, fun _ => rfl⟩ rfl
    ⟨by decide, rfl, rfl, rfl, fun h => absurd h (by decide)⟩ apartGraph rfl rfl G hG
    apartGraph_label (by decide +kernel) ⟨by decide +kernel, by decide +kernel, by decide +kernel⟩
    [(97, 2), (97, 3)] (by decide +kernel) 5 5 r r' hr hr'
  exact ⟨r, r', out, out', hr, hr', h⟩

end MooreFilter
