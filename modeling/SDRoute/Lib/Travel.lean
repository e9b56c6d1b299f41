import SDRoute.Lib.Forwarding

/-! A packet that is rewritten by the nodes on its way through a wired network, and what leaves the
network in the end. -/
namespace SDRoute.Forwarding

variable {N P K : Type} (w : Wiring N P) (process : N → P → K → List (P × K))

/-- Where a packet that enters at a node and port leaves the network, and as what, after at most
`n` nodes in a row. -/
def travel : ℕ → N × P → K → List ((N × P) × K)
  | 0, _, _ => []
  | n + 1, (d, i), k => (process d i k).flatMap fun out => match w.peer (d, out.1) with
    | none => [((d, out.1), out.2)]
    | some next => travel n next out.2

/-- What becomes of a packet that is put out on a port. -/
def exit (n : ℕ) (at' : N × P) (k : K) : List ((N × P) × K) :=
  match w.peer at' with
  | none => [(at', k)]
  | some next => travel w process n next k

variable {w process} {n : ℕ} {d : N} {i o : P} {at' : N × P} {k k' : K} {h g : Hop N P}
  {hs : List (Hop N P)}

theorem exit_unwired (hw : w.peer at' = none) : exit w process n at' k = [(at', k)] := by
  rw [exit, hw]

theorem exit_wired (hw : Wired w h g) : exit w process n (h.node, h.outPort) k =
    travel w process n (g.node, g.inPort) k := by
  rw [exit, show w.peer (h.node, h.outPort) = _ from hw]

/-- A node with one output. -/
theorem travel_hop (hout : process d i k = [(o, k')]) :
    travel w process (n + 1) (d, i) k = exit w process n (d, o) k' := by
  rw [travel, hout, List.flatMap_singleton]
  rfl

/-- A wired chain of hops that leave the packet as it is. -/
theorem travel_chain (hchain : hs.IsChain (Wired w))
    (houts : ∀ f ∈ hs, process f.node f.inPort k = [(f.outPort, k)]) (hfirst : hs.head? = some h)
    (hlast : hs.getLast? = some g) (n : ℕ) :
    travel w process (hs.length + n) (h.node, h.inPort) k =
      exit w process n (g.node, g.outPort) k := by
  induction hs generalizing h with
  | nil => cases hfirst
  | cons f fs ih =>
    obtain rfl := Option.some.inj hfirst
    rw [List.length_cons, Nat.add_right_comm, travel_hop (houts f (by simp))]
    cases fs with
    | nil =>
      obtain rfl := Option.some.inj hlast
      rw [List.length_nil, Nat.zero_add]
      rfl
    | cons f' fs =>
      obtain ⟨hwired, hrest⟩ := List.isChain_cons_cons.mp hchain
      rw [exit_wired hwired]
      exact ih hrest (fun f hf => houts f (by simp [hf])) rfl hlast

/-- What leaves the network was put out by its last node, for a packet that has what the nodes
keep. -/
theorem exists_process_of_mem_travel {I : K → Prop}
    (hprocess : ∀ d i k, I k → ∀ out ∈ process d i k, I out.2) (hk : I k)
    (h : (at', k') ∈ travel w process n (d, i) k) :
    ∃ i k, I k ∧ (at'.2, k') ∈ process at'.1 i k := by
  induction n generalizing d i k with
  | zero => cases h
  | succ n ih =>
    obtain ⟨out, hout, hmem⟩ := List.mem_flatMap.mp h
    cases hw : w.peer (d, out.1) with
    | none =>
      rw [hw] at hmem
      obtain ⟨rfl, rfl⟩ := Prod.mk.inj (List.mem_singleton.mp hmem)
      exact ⟨i, k, hk, hout⟩
    | some next =>
      rw [hw] at hmem
      exact ih (hprocess d i k hk out hout) hmem

theorem travel_keeps {I : K → Prop} (hprocess : ∀ d i k, I k → ∀ out ∈ process d i k, I out.2)
    (hk : I k) (h : (at', k') ∈ travel w process n (d, i) k) : I k' := by
  obtain ⟨i, k, hk, hout⟩ := exists_process_of_mem_travel hprocess hk h
  exact hprocess _ i k hk _ hout

end SDRoute.Forwarding
