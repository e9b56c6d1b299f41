import SDRoute.Algorithm.AlgorithmTables

/-! What one round of the loops that fill the tables adds to them, or raises. -/
namespace SDRoute

namespace AlgorithmTables
variable {status : LinkStatus} {switches : SwitchTable} {links : LinkTableApi}
  {s t : AlgorithmTables} {queue : List ℕ} {linkQueue : List (ℕ × ℕ)} {sw : ℕ × Switch}
  {item : (ℕ × ℕ) × Dict (ℕ × ℕ) Link}

/-- The node of a switch, by the places of the switches in the queue. -/
def nodeOf (queue : List ℕ) (item : ℕ × Switch) : Except Exc Node :=
  match queue.idxOf? item.1, item.2.neighbors.keys.mapM (fun dpid => queue.idxOf? dpid) with
  | some index, some neighborsIndex =>
    .ok { id := index, degree := neighborsIndex.length, connectNode := neighborsIndex }
  | _, _ => .error .valueError

theorem exec_makeNode (sw : ℕ × Switch) (s : AlgorithmTables) :
    (makeNode sw).exec s = match nodeOf s.switchQueue sw with
      | .ok node => (.ok (), { s with nodes := s.nodes ++ [node] })
      | .error e => (.error e, s) := by
  rw [makeNode, Py.exec_bind_of_ok (Py.exec_get s), nodeOf]
  cases s.switchQueue.idxOf? sw.1 with
  | none => rfl
  | some index =>
    rw [Py.ofOption_some, pure_bind, Py.exec_bind, Py.exec_mapM_ofOption]
    cases sw.2.neighbors.keys.mapM fun dpid => s.switchQueue.idxOf? dpid <;> rfl

theorem nodeOf_ok_iff (hsw : sw.1 ∈ queue) :
    (∃ node, nodeOf queue sw = .ok node) ↔ ∀ dpid ∈ sw.2.neighbors.keys, dpid ∈ queue := by
  obtain ⟨index, hindex⟩ := Option.isSome_iff_exists.mp (List.isSome_idxOf?.mpr hsw)
  rw [nodeOf, hindex, ← Py.isSome_mapM_idxOf?]
  cases sw.2.neighbors.keys.mapM fun dpid => queue.idxOf? dpid <;> simp

/-- The edge of a pair, from the first of its links, and that link. -/
def edgeOf (status : LinkStatus) (queue : List (ℕ × ℕ)) (item : (ℕ × ℕ) × Dict (ℕ × ℕ) Link) :
    Except Exc (Edge × Link) :=
  match queue.idxOf? item.1, item.2.values.head?.map status with
  | none, _ => .error .valueError
  | some _, none => .error .indexError
  | some index, some value => match value.pktLoss, value.delay, value.totalBand with
    | some pktLoss, some delay, some totalBand =>
      .ok ({ id := index, src := item.1.1, dst := item.1.2, delay, band := totalBand,
             loss := pktLoss / 100 }, value)
    | _, _, _ => .error .typeError

theorem exec_makeEdge_eq (item : (ℕ × ℕ) × Dict (ℕ × ℕ) Link) (s : AlgorithmTables) :
    (makeEdge status item).exec s = match edgeOf status s.linkQueue item with
      | .ok (e, value) => (.ok value, { s with edges := s.edges ++ [e] })
      | .error err => (.error err, s) := by
  rw [makeEdge, Py.exec_bind_of_ok (Py.exec_get s), edgeOf]
  cases s.linkQueue.idxOf? item.1 with
  | none => rfl
  | some index =>
    cases item.2.values.head? with
    | none => rfl
    | some link =>
      simp only [Option.map_some, Py.ofOption_some, pure_bind]
      cases (status link).pktLoss with
      | none => rfl
      | some pktLoss =>
        cases (status link).delay with
        | none => rfl
        | some delay => cases (status link).totalBand <;> rfl

theorem exec_makeNodes (s : AlgorithmTables) (items : List (ℕ × Switch)) :
    ((items.forM makeNode).exec s).2 =
        { s with nodes := s.nodes ++ Py.taken (nodeOf s.switchQueue) items } ∧
      (((items.forM makeNode).exec s).1 = .ok () ↔
        ∀ sw ∈ items, ∃ node, nodeOf s.switchQueue sw = .ok node) := by
  have hrounds := Py.exec_forM_taken (f := makeNode) (g := nodeOf s.switchQueue)
    (fun nodes => { s with nodes := s.nodes ++ nodes }) items (fun sw _ nodes => by
      rw [exec_makeNode]
      cases nodeOf s.switchQueue sw <;> simp) []
  simpa using hrounds

theorem exec_makeEdges (status : LinkStatus) (s : AlgorithmTables)
    (items : List ((ℕ × ℕ) × Dict (ℕ × ℕ) Link)) :
    ((items.forM fun item => discard (makeEdge status item)).exec s).2 = { s with
        edges := s.edges ++ (Py.taken (edgeOf status s.linkQueue) items).map Prod.fst } ∧
      (((items.forM fun item => discard (makeEdge status item)).exec s).1 = .ok () ↔
        ∀ item ∈ items, ∃ e, edgeOf status s.linkQueue item = .ok e) := by
  have hrounds := Py.exec_forM_taken (f := fun item => discard (makeEdge status item))
    (g := edgeOf status s.linkQueue)
    (fun edges => { s with edges := s.edges ++ edges.map Prod.fst }) items (fun item _ edges => by
      rw [Py.exec_discard, exec_makeEdge_eq]
      cases edgeOf status s.linkQueue item <;> simp [Except.map]) []
  simpa using hrounds

/-- The first link of a pair is configured. -/
def Configured (status : LinkStatus) (item : (ℕ × ℕ) × Dict (ℕ × ℕ) Link) : Prop :=
  ∃ link, item.2.values.head? = some link ∧ (status link).pktLoss.isSome ∧
    (status link).delay.isSome ∧ (status link).totalBand.isSome

theorem edgeOf_ok_iff {queue : List (ℕ × ℕ)} (hitem : item.1 ∈ queue) :
    (∃ e, edgeOf status queue item = .ok e) ↔ Configured status item := by
  obtain ⟨index, hindex⟩ := Option.isSome_iff_exists.mp (List.isSome_idxOf?.mpr hitem)
  rw [edgeOf, hindex, Configured]
  cases item.2.values.head? with
  | none => simp
  | some link =>
    simp only [Option.map_some, Option.some.injEq, exists_eq_left']
    cases (status link).pktLoss <;> cases (status link).delay <;>
      cases (status link).totalBand <;> simp

theorem edgeOf_ends {queue : List (ℕ × ℕ)} {e : Edge × Link}
    (h : edgeOf status queue item = .ok e) : (e.1.src, e.1.dst) = item.1 := by
  rw [edgeOf] at h
  split at h
  · cases h
  · cases h
  · split at h
    · obtain rfl := Except.ok.inj h
      rfl
    · cases h

end AlgorithmTables
end SDRoute
