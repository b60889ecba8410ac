import FractalShader.Proofs.Graph.Closing

/-
  Connecting two nodes succeeds when and only when some edge
  between them, at a port that the request allows, leaves
  the graph legal.

  Main declarations:
    * `Node.Offers`
    * `Graph.Fits`
    * `Graph.Legal.real_of_dual`
    * `Graph.Legal.portTaken_iff`
    * `Graph.Legal.offers_of_freePort`
    * `Graph.Legal.exists_freePort`
    * `Graph.Legal.connect_of_fits`
    * `Graph.Legal.fits_of_connect`
    * `Graph.connects_what_fits`
-/

------------------------------------------------------------
-- Ports That a Request Allows
------------------------------------------------------------

namespace FractalShader

/-
  A node with one input has no ports.  A node with two takes
  an edge at the requested port, or at any without request.
-/
def Node.Offers
    (node : Node)
    (requested port : Option Port) : Prop :=
  match Catalog.builtIn.arity node.kind with
  | .single => port = none
  | .dual =>
      port ≠ none ∧ ∀ asked ∈ requested, port = some asked

namespace Graph

variable {g : Graph} {node : Node}
variable {requested port : Option Port}

/- A node with two inputs is no sentinel. -/
theorem Legal.real_of_dual
    (h : g.Legal)
    (hNode : node ∈ g.nodes)
    (hArity : Catalog.builtIn.arity node.kind = .dual) :
    isSentinel node.id = false := by
  have hPlaced :
      ∀ id position,
        (Node.sentinel id).placed position ∈ g.nodes →
          Catalog.builtIn.arity id = .single →
            node.id ≠ id := by
    intro id position hSentinel hSingle hId
    have hSame := h.node_unique hNode hSentinel (by simpa)
    rw [hSame] at hArity
    cases hSingle.symm.trans hArity
  rcases h.start with ⟨_, hStart⟩
  rcases h.final with ⟨_, hFinal⟩
  have hNotStart := hPlaced _ _ hStart (by decide)
  have hNotEnd := hPlaced _ _ hFinal (by decide)
  simp [isSentinel, hNotStart, hNotEnd]

/- A port of a node with two is taken when an edge names it. -/
theorem Legal.portTaken_iff
    (h : g.Legal)
    (hNode : node ∈ g.nodes)
    (hArity : Catalog.builtIn.arity node.kind = .dual)
    (port : Port) :
    g.portTaken node.id port = true ↔
      some port ∈ g.ports node.id := by
  have hReal := h.real_of_dual hNode hArity
  have hNamed := (h.dual node hNode hReal hArity).1
  have hTaken :
      g.portTaken node.id port =
        (g.ports node.id).any fun p => p.getD .a == port := by
    simp [portTaken, ports, List.any_map, Function.comp_def]
  rw [hTaken, List.any_eq_true]
  constructor
  · rintro ⟨p, hMem, hPort⟩
    cases p with
    | none => exact absurd hMem hNamed
    | some p => simpa using beq_iff_eq.mp hPort ▸ hMem
  · intro hMem
    exact ⟨some port, hMem, by simp⟩

/- A port that is found free is one that the node offers. -/
theorem Legal.offers_of_freePort
    (h : g.Legal)
    (hNode : node ∈ g.nodes)
    (hFree : g.freePort .builtIn node requested = .ok port) :
    node.Offers requested port := by
  unfold freePort at hFree
  unfold Node.Offers
  split at hFree
  · rename_i hEnd
    cases hFree
    cases hArity : Catalog.builtIn.arity node.kind with
    | single => rfl
    | dual =>
        have hReal := h.real_of_dual hNode hArity
        simp [isSentinel, hEnd] at hReal
  · cases hArity : Catalog.builtIn.arity node.kind with
    | single =>
        simp only [hArity] at hFree
        split at hFree
        · cases hFree
          rfl
        · cases hFree
    | dual =>
        simp only [hArity] at hFree
        split at hFree
        · rename_i free hFound
          cases hFree
          refine ⟨by simp, ?_⟩
          intro asked hAsked
          cases hAsked
          have hMem := List.mem_of_find?_eq_some hFound
          exact congrArg some (List.mem_singleton.mp hMem)
        · cases hFree

/- Without a request the first port is taken if it is free. -/
theorem Legal.first_of_freePort
    (h : g.Legal)
    (hNode : node ∈ g.nodes)
    (hArity : Catalog.builtIn.arity node.kind = .dual)
    (hFree : g.freePort .builtIn node none = .ok port) :
    port =
      if some .a ∈ g.ports node.id then
        some .b
      else
        some .a := by
  have hNotEnd : ¬ node.id = endId := by
    intro hEnd
    have hReal := h.real_of_dual hNode hArity
    simp [isSentinel, hEnd] at hReal
  have hTaken := h.portTaken_iff hNode hArity .a
  simp only [freePort, hNotEnd, if_false, hArity,
    List.find?_cons, List.find?_nil] at hFree
  cases hFirst : g.portTaken node.id .a with
  | false =>
      rw [hFirst] at hFree hTaken
      cases hFree
      rw [if_neg]
      simpa using hTaken
  | true =>
      rw [hFirst] at hFree hTaken
      rw [if_pos (hTaken.mp rfl)]
      cases hSecond : g.portTaken node.id .b with
      | false =>
          rw [hSecond] at hFree
          cases hFree
          rfl
      | true =>
          rw [hSecond] at hFree
          cases hFree

end Graph

end FractalShader

------------------------------------------------------------
-- Edges That Fit
------------------------------------------------------------

namespace FractalShader

open Relation

namespace Graph

/-
  An edge joins two nodes, at a port that the request
  allows, and leaves the graph legal.
-/
structure Fits
    (g : Graph)
    (requested : Option Port)
    (edge : Edge) : Prop where
  source_mem : edge.source ∈ g.ids
  offered :
    ∃ node,
      g.node? edge.target = some node ∧
        node.Offers requested edge.port
  legal : (g.withEdge edge).Legal

variable {g : Graph} {node : Node} {edge : Edge}
variable {requested : Option Port}

/- A node has a free port when an edge into it is legal. -/
theorem Legal.exists_freePort
    (h : g.Legal)
    (hNode : node ∈ g.nodes)
    (hTarget : edge.target = node.id)
    (hOffers : node.Offers requested edge.port)
    (hLegal : (g.withEdge edge).Legal) :
    ∃ port, g.freePort .builtIn node requested = .ok port := by
  by_cases hEnd : node.id = endId
  · exact ⟨none, by simp [freePort, hEnd]⟩
  have hReal : isSentinel node.id = false := by
    have hDirected :=
      (hLegal.directed edge (List.mem_append_right _ (by simp)))
    rw [hTarget] at hDirected
    simp [isSentinel, hEnd, hDirected.2]
  have hPorts :
      (g.withEdge edge).ports node.id =
        g.ports node.id ++ [edge.port] := by
    have hAdded := ports_withEdge g edge node.id
    rwa [if_pos hTarget] at hAdded
  unfold Node.Offers at hOffers
  cases hArity : Catalog.builtIn.arity node.kind with
  | single =>
      have hLength :=
        (hLegal.single node hNode hReal hArity).1
      rw [hPorts] at hLength
      have hEmpty : g.incoming node.id = [] := by
        simpa [ports] using hLength
      exact ⟨none, by simp [freePort, hEnd, hArity, hEmpty]⟩
  | dual =>
      rw [hArity] at hOffers
      rcases hOffers with ⟨hSome, hAsked⟩
      rcases Option.ne_none_iff_exists'.mp hSome with
        ⟨port, hPort⟩
      have hCount :=
        (hLegal.dual node hNode hReal hArity).2 port
      rw [hPorts, hPort, List.count_append,
        List.count_singleton_self] at hCount
      have hAbsent : some port ∉ g.ports node.id :=
        List.count_eq_zero.mp (by omega)
      have hFree : g.portTaken node.id port = false := by
        rw [← Bool.not_eq_true,
          h.portTaken_iff hNode hArity]
        exact hAbsent
      -- The port of the edge is among the candidates.
      have hFound :
          ∀ candidates : List Port, port ∈ candidates →
            ∃ free,
              candidates.find?
                  (fun port => !g.portTaken node.id port) =
                some free := by
        intro candidates hListed
        rw [← Option.isSome_iff_exists, List.find?_isSome]
        exact ⟨port, hListed, by simp [hFree]⟩
      cases requested with
      | none =>
          rcases hFound [.a, .b] (by cases port <;> simp) with
            ⟨free, hFirst⟩
          exact
            ⟨some free,
              by simp [freePort, hEnd, hArity, hFirst]⟩
      | some asked =>
          have hEq := hAsked asked rfl
          rw [hPort] at hEq
          rcases hFound [asked] (by simpa using hEq) with
            ⟨free, hFirst⟩
          exact
            ⟨some free,
              by simp [freePort, hEnd, hArity, hFirst]⟩

theorem arrows_withEdge
    (g : Graph)
    (edge : Edge) :
    (g.withEdge edge).arrows = g.arrows ++ [edge.arrow] := by
  simp [arrows, withEdge]

/- The search for a cycle lets a legal edge pass. -/
theorem wouldCycle_of_legal
    (hLegal : (g.withEdge edge).Legal) :
    g.wouldCycle edge.source edge.target = false := by
  have hAcyclic := hLegal.acyclic
  rw [arrows_withEdge] at hAcyclic
  apply (Arrow.closesCycle_eq_false_iff _ _ _).mpr
  refine ⟨?_, hAcyclic.mono fun a ha => List.mem_of_mem_filter ha⟩
  intro hLoop
  have hSame : edge.source = edge.target := hLoop
  have hLeads :
      Arrow.Leads (g.arrows ++ [edge.arrow]) edge.source
        edge.target :=
    List.mem_append_right _ (List.mem_singleton_self _)
  rw [← hSame] at hLeads
  exact hAcyclic edge.source (.single hLeads)

/- An edge that fits shows that its ends can be connected. -/
theorem Legal.connect_of_fits
    (h : g.Legal)
    (hFits : g.Fits requested edge)
    (id : String) :
    ∃ port,
      g.connect .builtIn id edge.source edge.target requested =
        (.ok (),
          g.withEdge ⟨id, edge.source, edge.target, port⟩) := by
  rcases hFits.offered with ⟨node, hNode, hOffers⟩
  rcases node?_eq_some hNode with ⟨hMem, hId⟩
  rcases h.exists_freePort hMem hId.symm hOffers hFits.legal
    with ⟨port, hFree⟩
  have hLast : edge ∈ (g.withEdge edge).edges :=
    List.mem_append_right _ (List.mem_singleton_self edge)
  have hNew : edge.arrow ∉ g.arrows := by
    have hNodup := hFits.legal.arrows
    rw [arrows_withEdge] at hNodup
    intro hOld
    exact
      (List.nodup_append.mp hNodup).2.2 _ hOld _
        (List.mem_singleton_self _) rfl
  have hCycle := wouldCycle_of_legal hFits.legal
  have hApart : edge.source ≠ edge.target :=
    ((Arrow.closesCycle_eq_false_iff _ _ _).mp hCycle).1
  have hAccepted :
      g.acceptedPort .builtIn edge.source edge.target
          requested =
        .ok port :=
    (acceptedPort_eq_ok_iff g _ _ _ _ _).mpr
      ⟨(hasNode_iff g _).mpr hFits.source_mem,
        hFits.legal.directed edge hLast, hApart, hNew, hCycle,
        node, hNode, hFree⟩
  refine ⟨port, ?_⟩
  unfold Graph.connect
  rw [hAccepted]
  rfl

/- An edge that is taken fits, and nothing else is added. -/
theorem Legal.fits_of_connect
    (h : g.Legal)
    {id source target : String}
    (hDrawn : id ∉ g.edges.map Edge.id)
    (hOk :
      (g.connect .builtIn id source target requested).1 =
        .ok ()) :
    ∃ node port,
      g.node? target = some node ∧
        g.freePort .builtIn node requested = .ok port ∧
        g.Fits requested ⟨id, source, target, port⟩ ∧
        (g.connect .builtIn id source target requested).2 =
          g.withEdge ⟨id, source, target, port⟩ := by
  have hKept := h.connect hDrawn source target requested
  unfold Graph.connect at hOk hKept ⊢
  split at hOk
  · cases hOk
  · rename_i port hPort
    rw [hPort] at hKept
    rcases (acceptedPort_eq_ok_iff g _ _ _ _ _).mp hPort with
      ⟨hSource, _, _, _, _, node, hNode, hFree⟩
    have hMem := (node?_eq_some hNode).1
    refine ⟨node, port, hNode, hFree, ?_, rfl⟩
    exact
      { source_mem := (hasNode_iff g _).mp hSource
        offered :=
          ⟨node, hNode, h.offers_of_freePort hMem hFree⟩
        legal := hKept }

/-
  Connecting two nodes, under an id that is not in use,
  succeeds when and only when some edge between them fits.
  Then one edge that fits is added, and without a request it
  takes the first port of two if that one is free.
-/
theorem connects_what_fits
    (h : g.Reachable)
    {id : String}
    (hDrawn : id ∉ g.edges.map Edge.id)
    (source target : String)
    (requested : Option Port) :
    ((g.connect .builtIn id source target requested).1 =
        .ok () ↔
      ∃ edge,
        edge.source = source ∧
          edge.target = target ∧
          g.Fits requested edge) ∧
      ((g.connect .builtIn id source target requested).1 =
          .ok () →
        ∃ node port,
          g.node? target = some node ∧
            g.Fits requested ⟨id, source, target, port⟩ ∧
            (g.connect .builtIn id source target
                requested).2 =
              g.withEdge ⟨id, source, target, port⟩ ∧
            (Catalog.builtIn.arity node.kind = .dual →
              requested = none →
              port =
                if some .a ∈ g.ports target then
                  some .b
                else
                  some .a)) := by
  have hLegal := h.legal
  refine ⟨⟨?_, ?_⟩, ?_⟩
  · intro hOk
    rcases hLegal.fits_of_connect hDrawn hOk with
      ⟨_, port, _, _, hFits, _⟩
    exact ⟨_, rfl, rfl, hFits⟩
  · rintro ⟨edge, rfl, rfl, hFits⟩
    rcases hLegal.connect_of_fits hFits id with ⟨port, hEq⟩
    rw [hEq]
  · intro hOk
    rcases hLegal.fits_of_connect hDrawn hOk with
      ⟨node, port, hNode, hFree, hFits, hAdded⟩
    refine ⟨node, port, hNode, hFits, hAdded, ?_⟩
    rintro hArity rfl
    rcases node?_eq_some hNode with ⟨hMem, rfl⟩
    exact hLegal.first_of_freePort hMem hArity hFree

/- A node with two inputs, the first of which is taken. -/
def branched : Graph :=
  initial.performAll
    [.addNode "turn" "rotate", .addNode "sum" "union",
      .connect "first" startId "sum" (some .a)]

theorem connects_what_fits_branched :
    branched.Reachable ∧
      "second" ∉ branched.edges.map Edge.id ∧
      branched.Fits none ⟨"second", "turn", "sum", some .b⟩ ∧
      (branched.connect .builtIn "second" "turn" "sum"
          none).2 =
        branched.withEdge
          ⟨"second", "turn", "sum", some .b⟩ ∧
      ¬ ∃ edge,
        edge.source = "turn" ∧
          edge.target = "sum" ∧
          branched.Fits (some .a) edge := by
  have hReachable : branched.Reachable := by
    refine Reachable.initial.performAll _ (by decide) ?_
    intro id _ hMem
    cases hMem
  have hDrawn : "second" ∉ branched.edges.map Edge.id := by
    decide +kernel
  have hOk :
      (branched.connect .builtIn "second" "turn" "sum"
          none).1 =
        .ok () := by
    decide +kernel
  have hRefused :
      (branched.connect .builtIn "second" "turn" "sum"
          (some .a)).1 ≠
        .ok () := by
    decide +kernel
  have hSum :
      (branched.node? "sum").map Node.toOperation =
        some { id := "sum", kind := "union" } := by
    decide +kernel
  have hArity : Catalog.builtIn.arity "union" = .dual := by
    decide +kernel
  have hFirst : some Port.a ∈ branched.ports "sum" := by
    decide +kernel
  rcases (connects_what_fits hReachable hDrawn "turn" "sum"
      none).2 hOk with
    ⟨node, port, hNode, hFits, hAdded, hChosen⟩
  have hKind : node.kind = "union" := by
    rw [hNode] at hSum
    exact congrArg Operation.kind (Option.some.inj hSum)
  have hPort := hChosen (hKind ▸ hArity) rfl
  rw [if_pos hFirst] at hPort
  subst hPort
  refine ⟨hReachable, hDrawn, hFits, hAdded, ?_⟩
  exact
    mt
      (connects_what_fits hReachable hDrawn "turn" "sum"
        (some .a)).1.mpr
      hRefused

end Graph

end FractalShader
