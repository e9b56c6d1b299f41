import SDRoute.Lib.Triple
import SDRoute.LoadBalance.LoadBalancer

/-! The counts of the servers of a cluster stay close to each other. -/
namespace SDRoute.LC
open Py

variable {ι : Type} {s t : LC ι} {config : Dict String (List (ServerInfo ι))}
  {net net' server a b : String} {servers servers' : List (ServerInfo ι)}

def addresses (servers : List (ServerInfo ι)) : List String := servers.map Prod.fst

/-- Clusters that have a server in common have all of them. -/
def Shared (config : Dict String (List (ServerInfo ι))) : Prop :=
  ∀ net net' servers servers', config.get? net = some servers → config.get? net' = some servers' →
    ∀ a ∈ addresses servers, a ∈ addresses servers' → servers = servers'

def count (s : LC ι) (server : String) : ℕ := (s.connectionNum.get? server).getD 0

structure Fair (config : Dict String (List (ServerInfo ι))) (s : LC ι) : Prop where
  serverDict : s.serverDict = config
  known : ∀ net servers, config.get? net = some servers →
    ∀ a ∈ addresses servers, a ∈ s.connectionNum
  balanced : ∀ net servers, config.get? net = some servers →
    ∀ a ∈ addresses servers, ∀ b ∈ addresses servers, s.count a ≤ s.count b + 1

/-- What is found first in a sorted list is least. -/
theorem le_of_find? {α : Type} {f : α → ℕ} {p : α → Bool} {xs : List α} {x y : α}
    (hsorted : xs.Pairwise fun x y => f x ≤ f y) (hx : xs.find? p = some x) (hy : y ∈ xs)
    (hp : p y = true) : f x ≤ f y := by
  induction xs with
  | nil => cases hy
  | cons z xs ih =>
    obtain ⟨hz, hsorted⟩ := List.pairwise_cons.mp hsorted
    rw [List.find?_cons] at hx
    split at hx
    · obtain rfl := Option.some.inj hx
      rcases List.mem_cons.mp hy with rfl | hy
      · exact le_rfl
      · exact hz y hy
    · rename_i hfalse
      rcases List.mem_cons.mp hy with rfl | hy
      · rw [hp] at hfalse
        cases hfalse
      · exact ih hsorted hx hy

theorem sorted_allSortedServers : s.allSortedServers.Pairwise fun a b => a.2 ≤ b.2 := by
  have hsorted := @List.pairwise_mergeSort _ (fun a b : String × ℕ => decide (a.2 ≤ b.2))
    (fun a b c => by simpa using le_trans) (fun a b => by simpa using le_total a.2 b.2)
    s.connectionNum.items
  exact hsorted.imp fun h => by simpa using h

theorem mem_allSortedServers {entry : String × ℕ} :
    entry ∈ s.allSortedServers ↔ s.connectionNum.get? entry.1 = some entry.2 := by
  rw [allSortedServers, List.mem_mergeSort]
  exact Dict.mem_items

/-- A server of the cluster with the least count is given one more connection. -/
structure Chosen (s t : LC ι) (servers : List (ServerInfo ι)) (server : String) : Prop where
  mem : server ∈ addresses servers
  least : ∀ a ∈ addresses servers, s.count server ≤ s.count a
  count : ∀ a, t.count a = if a = server then s.count a + 1 else s.count a

theorem exec_calculateDstServer (hs : Fair config s) (hnet : config.get? net = some servers)
    (hne : servers ≠ []) : ∃ server, ∃ counts,
      (calculateDstServer net).exec s = (.ok (some server), { s with connectionNum := counts }) ∧
        (∀ a, a ∈ s.connectionNum → a ∈ counts) ∧
        Chosen s { s with connectionNum := counts } servers server := by
  have hget : s.serverDict.get? net = some servers := hs.serverDict ▸ hnet
  have hcount : ∀ a ∈ addresses servers, (a, s.count a) ∈ s.allSortedServers := by
    intro a ha
    obtain ⟨n, hn⟩ := Dict.mem_iff_get?.mp (hs.known net servers hnet a ha)
    rw [mem_allSortedServers, LC.count, hn]
    rfl
  obtain ⟨⟨server, n⟩, hfind⟩ : ∃ entry,
      s.allSortedServers.find? (·.1 ∈ addresses servers) = some entry := by
    obtain ⟨first, hfirst⟩ := List.exists_mem_of_ne_nil _ hne
    have ha : first.1 ∈ addresses servers := List.mem_map_of_mem hfirst
    rw [← Option.isSome_iff_exists, List.find?_isSome]
    exact ⟨_, hcount _ ha, by simpa using ha⟩
  have hserver : server ∈ addresses servers := by simpa using List.find?_some hfind
  have hn : s.connectionNum.get? server = some n :=
    mem_allSortedServers.mp (List.mem_of_find?_eq_some hfind)
  refine ⟨server, s.connectionNum.set server (n + 1), ?_, fun a ha => ?_, hserver, ?_, ?_⟩
  · rw [calculateDstServer, exec_bind_of_ok (exec_get s), hget, ofOption_some,
      exec_bind_of_ok (exec_pure _ _)]
    have hfind' : s.allSortedServers.find? (·.1 ∈ servers.map Prod.fst) = some (server, n) := hfind
    simp only [hfind']
    rw [hn, ofOption_some, exec_bind_of_ok (exec_pure _ _), exec_bind_of_ok (exec_set _ _),
      exec_pure]
  · exact Dict.mem_set.mpr (.inr ha)
  · intro a ha
    have hle := le_of_find? sorted_allSortedServers hfind (hcount a ha) (by simpa using ha)
    rwa [LC.count, hn]
  · intro a
    rw [LC.count, Dict.get?_set]
    split
    · subst a
      rw [LC.count, hn]
      rfl
    · rfl

/-- A cluster that shares the server has the same servers, all of them with that count or more. -/
theorem Chosen.fair (h : Chosen s t servers server) (hs : Fair config s) (hshared : Shared config)
    (hnet : config.get? net = some servers) (hdict : t.serverDict = s.serverDict)
    (hknown : ∀ a, a ∈ s.connectionNum → a ∈ t.connectionNum) : Fair config t where
  serverDict := hdict.trans hs.serverDict
  known net' servers' hnet' a ha := hknown a (hs.known net' servers' hnet' a ha)
  balanced net' servers' hnet' a ha b hb := by
    have hle := hs.balanced net' servers' hnet' a ha b hb
    rw [h.count, h.count]
    by_cases hserver : a = server
    · subst a
      obtain rfl := hshared net net' servers servers' hnet hnet' server h.mem ha
      have hleast := h.least b hb
      split_ifs <;> omega
    · split_ifs <;> omega

theorem get?_foldl_set {xs : List (ServerInfo ι)} {counts : Dict String ℕ} :
    (xs.foldl (fun counts server => counts.set server.1 1) counts).get? a =
      if a ∈ addresses xs then some 1 else counts.get? a := by
  induction xs generalizing counts with
  | nil => simp [addresses]
  | cons x xs ih =>
    rw [List.foldl_cons, ih, Dict.get?_set]
    by_cases hxs : a ∈ addresses xs <;> by_cases hx : a = x.1 <;> simp_all [addresses]

theorem get?_init_foldl {clusters : List (String × List (ServerInfo ι))}
    {counts : Dict String ℕ} :
    (clusters.foldl (fun counts cluster =>
      cluster.2.foldl (fun counts server => counts.set server.1 1) counts) counts).get? a =
      if ∃ cluster ∈ clusters, a ∈ addresses cluster.2 then some 1 else counts.get? a := by
  induction clusters generalizing counts with
  | nil => simp
  | cons cluster clusters ih =>
    rw [List.foldl_cons, ih, get?_foldl_set]
    by_cases hrest : ∃ cluster ∈ clusters, a ∈ addresses cluster.2 <;>
      by_cases hfirst : a ∈ addresses cluster.2 <;> simp [hrest, hfirst]

/-- All servers start with the same count. -/
theorem fair_init : Fair config (LC.init config) := by
  have hone : ∀ net servers, config.get? net = some servers → ∀ a ∈ addresses servers,
      (LC.init config).connectionNum.get? a = some 1 := by
    intro net servers hnet a ha
    rw [LC.init, get?_init_foldl, if_pos ⟨(net, servers), Dict.mem_items.mpr hnet, ha⟩]
  refine ⟨rfl, fun net servers hnet a ha => ?_, fun net servers hnet a ha b hb => ?_⟩
  · exact Dict.mem_iff_get?.mpr ⟨1, hone net servers hnet a ha⟩
  · rw [LC.count, LC.count, hone net servers hnet a ha, hone net servers hnet b hb]
    exact Nat.le_succ 1

section Run
variable {ClusterType : Type} [DecidableEq ClusterType] {clusters : Dict String ClusterType}
  {serversBasedOnType : Dict ClusterType (List (ServerInfo ι))} {lb lb' : LoadBalancer ι}

/-- Servers of different types have different addresses. -/
def DisjointTypes (serversBasedOnType : Dict ClusterType (List (ServerInfo ι))) : Prop :=
  ∀ type type' servers servers', type ≠ type' → serversBasedOnType.get? type = some servers →
    serversBasedOnType.get? type' = some servers' →
      (addresses servers).Disjoint (addresses servers')

/-- The servers of a cluster are those of its type. -/
theorem typed_configuration
    (hinit : (LoadBalancer.init clusters serversBasedOnType).exec lb = (.ok (), lb'))
    (hnet : lb'.configuration.get? net = some servers) :
    ∃ type, serversBasedOnType.get? type = some servers := by
  have htriple : Triple (fun _ => True) (LoadBalancer.init clusters serversBasedOnType)
      (fun _ lb => ∀ net servers, lb.configuration.get? net = some servers →
        ∃ type, serversBasedOnType.get? type = some servers) fun _ => True := by
    unfold LoadBalancer.init
    refine Triple.bind (Triple.foldlM (J := fun _ serverDict _ => ∀ net servers,
      Dict.get? serverDict net = some servers →
        ∃ type, serversBasedOnType.get? type = some servers) ?_ ∅ |>.pre ?_)
      fun serverDict => Triple.modify fun lb h => h
    · intro _ serverDict cluster _
      refine Triple.facts fun _ h => ?_
      refine (Triple.ofOption (fun _ => trivial) fun servers hservers _ _ => hservers).bind
        fun servers => Triple.pure fun lb hservers net servers' hnet => ?_
      rw [Dict.get?_set] at hnet
      split at hnet
      · exact ⟨cluster.2, hservers.trans hnet⟩
      · exact h net servers' hnet
    · rintro _ - net servers hnet
      cases hnet
  exact htriple.ok trivial hinit net servers hnet

theorem shared_configuration
    (hinit : (LoadBalancer.init clusters serversBasedOnType).exec lb = (.ok (), lb'))
    (hdisjoint : DisjointTypes serversBasedOnType) : Shared lb'.configuration := by
  intro net net' servers servers' hnet hnet' a ha ha'
  obtain ⟨type, htype⟩ := typed_configuration hinit hnet
  obtain ⟨type', htype'⟩ := typed_configuration hinit hnet'
  by_cases hsame : type = type'
  · subst hsame
    exact Option.some.inj (htype.symm.trans htype')
  · exact absurd ha' (hdisjoint type type' servers servers' hsame htype htype' ha)

def step (s : LC ι) (net : String) : LC ι := ((calculateDstServer net).exec s).2

theorem step_fair (hs : Fair config s) (hshared : Shared config)
    (hnet : config.get? net = some servers) (hne : servers ≠ []) :
    ∃ server, (calculateDstServer net).exec s = (.ok (some server), step s net) ∧
      Chosen s (step s net) servers server ∧ Fair config (step s net) := by
  obtain ⟨server, counts, hexec, hknown, hchosen⟩ := exec_calculateDstServer hs hnet hne
  have hstep : step s net = { s with connectionNum := counts } := by rw [step, hexec]
  rw [hstep]
  exact ⟨server, hexec, hchosen, hchosen.fair hs hshared hnet rfl hknown⟩

theorem fair_run (hs : Fair config s) (hshared : Shared config) {calls : List String}
    (hcalls : ∀ net ∈ calls, ∃ servers, config.get? net = some servers ∧ servers ≠ []) :
    Fair config (Machine.run step s calls) := by
  induction calls generalizing s with
  | nil => exact hs
  | cons net calls ih =>
    obtain ⟨servers, hnet, hne⟩ := hcalls net (by simp)
    obtain ⟨server, -, -, hfair⟩ := step_fair hs hshared hnet hne
    exact ih hfair fun net' hnet' => hcalls net' (by simp [hnet'])

/-- After every sequence of calls for clusters with servers: a call gives one more connection to
a server of the cluster with the least count, and the counts of two servers of a cluster differ
by at most one. -/
theorem calculateDstServer_fair
    (hinit : (LoadBalancer.init clusters serversBasedOnType).exec lb = (.ok (), lb'))
    (hdisjoint : DisjointTypes serversBasedOnType) (calls : List String)
    (hcalls : ∀ net ∈ calls, ∃ servers, lb'.configuration.get? net = some servers ∧ servers ≠ []) :
    (∀ before net, before ++ [net] <+: calls →
      ∃ servers server, lb'.configuration.get? net = some servers ∧
        (calculateDstServer net).exec (Machine.run step lb'.update.algorithm before) =
          (.ok (some server), Machine.run step lb'.update.algorithm (before ++ [net])) ∧
        Chosen (Machine.run step lb'.update.algorithm before)
          (Machine.run step lb'.update.algorithm (before ++ [net])) servers server) ∧
    ∀ before, before <+: calls → ∀ net servers, lb'.configuration.get? net = some servers →
      ∀ a ∈ addresses servers, ∀ b ∈ addresses servers,
        (Machine.run step lb'.update.algorithm before).count a ≤
          (Machine.run step lb'.update.algorithm before).count b + 1 := by
  have hshared := shared_configuration hinit hdisjoint
  have hrun : ∀ before, before <+: calls →
      Fair lb'.configuration (Machine.run step lb'.update.algorithm before) :=
    fun before hbefore => fair_run fair_init hshared fun net hnet =>
      hcalls net (hbefore.subset hnet)
  refine ⟨fun before net hbefore => ?_, fun before hbefore => (hrun before hbefore).balanced⟩
  obtain ⟨servers, hnet, hne⟩ := hcalls net (hbefore.subset (by simp))
  obtain ⟨server, hexec, hchosen, -⟩ :=
    step_fair (hrun before ((List.prefix_append _ _).trans hbefore)) hshared hnet hne
  rw [Machine.run_append]
  exact ⟨servers, server, hnet, hexec, hchosen⟩

/-- Two clusters of one type, and one of another. -/
def threeClusters : Dict String Bool :=
  ((Dict.set ∅ "10.0.0.201" true).set "10.0.0.202" true).set "10.0.0.203" false

def webAndVideo : Dict Bool (List (ServerInfo Unit)) :=
  (Dict.set ∅ true [("10.0.0.1", ()), ("10.0.0.2", ())]).set false [("10.0.0.3", ())]

theorem disjointTypes_webAndVideo : DisjointTypes webAndVideo := by
  have htrue : webAndVideo.get? true = some [("10.0.0.1", ()), ("10.0.0.2", ())] := rfl
  have hfalse : webAndVideo.get? false = some [("10.0.0.3", ())] := rfl
  intro type type' servers servers' hne htype htype'
  cases type <;> cases type' <;> simp_all [addresses]

def balancedSystem : LoadBalancer Unit :=
  ((LoadBalancer.init threeClusters webAndVideo).exec {}).2

theorem calculateDstServer_fair_threeClusters :
    (Machine.run step balancedSystem.update.algorithm
      ["10.0.0.201", "10.0.0.203", "10.0.0.202", "10.0.0.201"]).count "10.0.0.1" ≤
    (Machine.run step balancedSystem.update.algorithm
      ["10.0.0.201", "10.0.0.203", "10.0.0.202", "10.0.0.201"]).count "10.0.0.2" + 1 := by
  have hinit : (LoadBalancer.init threeClusters webAndVideo).exec {} =
      (.ok (), balancedSystem) := Prod.ext (by decide +kernel) rfl
  have hweb : ∀ net ∈ ["10.0.0.201", "10.0.0.203", "10.0.0.202", "10.0.0.201"],
      ∃ servers, balancedSystem.configuration.get? net = some servers ∧ servers ≠ [] := by
    intro net hnet
    simp only [List.mem_cons, List.not_mem_nil, or_false] at hnet
    rcases hnet with rfl | rfl | rfl | rfl <;> exact ⟨_, rfl, by decide⟩
  exact (calculateDstServer_fair hinit disjointTypes_webAndVideo _ hweb).2 _ (List.prefix_refl _)
    "10.0.0.201" [("10.0.0.1", ()), ("10.0.0.2", ())] rfl _ (by decide) _ (by decide)

end Run
end SDRoute.LC
