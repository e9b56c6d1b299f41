import SDRoute.Algorithm.RequestTrees
import SDRoute.Route.BranchDelivery

/-! From the requests for a group to its packets: what the evolved trees do when they are
deployed. -/
namespace SDRoute.MulticastTaskEntry

open Forwarding NSGA2 Relation

variable {entry : MulticastTaskEntry} {view : RouteManageView} {w : Wiring ℕ ℕ}
  {groupInfo : Dict ℕ (Dict ℕ GroupPort)} {tables : FlowTables} {switches : SwitchTable}
  {answer : List (List ℕ)} {recs : FormatLinkList} {d e : ℕ}

/-- What a multicast task asks of the algorithm. -/
def IsRequest (entry : MulticastTaskEntry) (req : MulticastRequest) : Prop :=
  req.srcDpid = entry.srcDpid ∧ req.dstDpid = entry.dstDpid

/-- Branches that agree on the way to each switch are followed by the records. -/
theorem leads_of_agree (h : SimpleBranches entry.srcDpid answer)
    (hf : Traced entry.srcDpid answer recs) (hagree : ∀ p ∈ answer, ∀ q ∈ answer, Agree p q)
    {b : List ℕ} (hb : b ∈ answer) (hd : d ∈ b) : Leads recs entry.srcDpid d := by
  obtain ⟨i, hi⟩ := List.getElem?_of_mem hd
  induction i generalizing d with
  | zero =>
    obtain rfl : d = entry.srcDpid := Option.some.inj (hi.symm.trans (h.source b hb))
    exact .refl
  | succ i ih =>
    have hne : d ≠ entry.srcDpid := fun heq => h.not_source hb (heq ▸ hi)
    have hkey : d ∈ recs.map Prod.fst := (hf.mem_keys d).mpr ⟨b, hb, hd⟩
    obtain ⟨e, hformer⟩ := hf.hasFormer _ (hf.infoOf_of_mem_keys hkey) hne
    obtain ⟨c, hc, j, he, hj⟩ := hf.former _ (hf.infoOf_of_mem_keys hkey) e hformer
    have hsame : b[i]? = some e := (hagree b hb c hc i j d hi hj).trans he
    exact .head hformer (ih (List.mem_of_getElem? hsame) hsame)

theorem portsPair_of_neighboring (hhosts : Hosts switches view w entry groupInfo) {a b : ℕ}
    (h : Neighboring switches.Lists a b) : switches.PortsPair w a b := by
  rcases h with h | h
  · exact hhosts.wired a b h
  · exact (hhosts.wired b a h).symm

/-- Switches whose ports pair are known. -/
theorem known_of_portsPair {a b : ℕ} (h : switches.PortsPair w a b) : a ∈ switches := by
  obtain ⟨p, q, hp, -⟩ := h
  by_contra hknown
  have hnone : switches.get? a = none := by
    cases hsw : switches.get? a with
    | none => rfl
    | some sw => exact absurd (Dict.mem_of_get? hsw) hknown
  rw [SwitchTable.ports, hnone] at hp
  cases hp

/-! An answer for the task: a path of neighboring switches to each destination. -/

section answer
variable (hanswer : List.Forall₂ (IsPath (Neighboring switches.Lists) entry.srcDpid)
  entry.dstDpid answer)
include hanswer

theorem exists_destination {b : List ℕ} (hb : b ∈ answer) :
    ∃ d ∈ entry.dstDpid, IsPath (Neighboring switches.Lists) entry.srcDpid d b := by
  obtain ⟨k, hk, rfl⟩ := List.getElem_of_mem hb
  have hk' : k < entry.dstDpid.length := hanswer.length_eq ▸ hk
  exact ⟨_, List.getElem_mem hk', (List.forall₂_iff_get.mp hanswer).2 k hk' hk⟩

theorem exists_branch (hd : d ∈ entry.dstDpid) :
    ∃ b ∈ answer, IsPath (Neighboring switches.Lists) entry.srcDpid d b := by
  obtain ⟨k, hk, rfl⟩ := List.getElem_of_mem hd
  have hk' : k < answer.length := hanswer.length_eq ▸ hk
  exact ⟨_, List.getElem_mem hk', (List.forall₂_iff_get.mp hanswer).2 k hk hk'⟩

variable (hsourceNot : entry.srcDpid ∉ entry.dstDpid)
include hsourceNot

theorem two_le_length {b : List ℕ} (hb : b ∈ answer) : 2 ≤ b.length := by
  obtain ⟨d, hd, hpath⟩ := exists_destination hanswer hb
  have hhead := hpath.head
  have hlast := hpath.last
  match b with
  | [] => cases hhead
  | [x] =>
    obtain rfl := Option.some.inj hhead
    obtain rfl := Option.some.inj hlast
    exact absurd hd hsourceNot
  | x :: y :: rest => simp

theorem simpleBranches_of_answer (hne : answer ≠ []) :
    SimpleBranches entry.srcDpid answer where
  nonempty := hne
  source b hb := by
    obtain ⟨d, -, hpath⟩ := exists_destination hanswer hb
    rw [← List.head?_eq_getElem?]
    exact hpath.head
  long b hb := two_le_length hanswer hsourceNot hb
  nodup b hb := by
    obtain ⟨d, -, hpath⟩ := exists_destination hanswer hb
    exact hpath.nodup

theorem deployable_of_answer (hhosts : Hosts switches view w entry groupInfo) :
    Deployable view w answer groupInfo := by
  refine ⟨fun b hb => ?_, fun d => ?_, hhosts.facing⟩
  · obtain ⟨d, -, hpath⟩ := exists_destination hanswer hb
    have hchain : b.IsChain (switches.PortsPair w) :=
      hpath.chain.imp fun _ _ h => portsPair_of_neighboring hhosts h
    rw [hhosts.viewed]
    refine ⟨hhosts.keyed, fun x hx => ?_, hchain⟩
    -- Each switch of the path has a neighbor there.
    have hlong := two_le_length hanswer hsourceNot hb
    obtain ⟨i, hi, rfl⟩ := List.getElem_of_mem hx
    rcases Nat.lt_or_ge (i + 1) b.length with hnext | hlast
    · exact known_of_portsPair (List.isChain_iff_getElem.mp hchain i hnext)
    · obtain ⟨j, rfl⟩ : ∃ j, i = j + 1 := ⟨i - 1, by omega⟩
      exact known_of_portsPair (List.isChain_iff_getElem.mp hchain j hi).symm
  · rw [hhosts.members]
    constructor
    · intro hd
      obtain ⟨b, hb, hpath⟩ := exists_branch hanswer hd
      exact ⟨b, hb, hpath.last⟩
    · rintro ⟨b, hb, hlast⟩
      obtain ⟨d', hd', hpath⟩ := exists_destination hanswer hb
      obtain rfl := Option.some.inj (hpath.last.symm.trans hlast)
      exact hd'

end answer

/-- The answer is deployed, and its packets are served at most once; branches that agree serve
every member. -/
def DeploysOnce (entry : MulticastTaskEntry) (view : RouteManageView) (w : Wiring ℕ ℕ)
    (tables : FlowTables) (groupInfo : Dict ℕ (Dict ℕ GroupPort)) (answer : List (List ℕ)) :
    Prop :=
  ∃ recs box, formatLinkList answer = .ok recs ∧
    (entry.deployFlowTable view answer).exec {} = (.ok (), box) ∧
      ServedOnce w entry tables groupInfo recs box.mods ∧
        (FormsTree entry.srcDpid answer → ∀ n, recs.length ≤ n → ∀ d p,
          (d, p) ∈ outputs w entry tables box.mods n ↔
            ∃ ports, groupInfo.get? d = some ports ∧ p ∈ ports)

theorem deploysOnce_of_answer
    (hanswer : List.Forall₂ (IsPath (Neighboring switches.Lists) entry.srcDpid) entry.dstDpid
      answer) (hne : answer ≠ []) (hsourceNot : entry.srcDpid ∉ entry.dstDpid)
    (hhosts : Hosts switches view w entry groupInfo)
    (hsource : w.peer (entry.srcDpid, entry.srcPortNo) = none)
    (htables : ∀ d, FlowTables.NoneFor entry.srcIp entry.dstIp (tables d)) :
    DeploysOnce entry view w tables groupInfo answer := by
  have h := simpleBranches_of_answer hanswer hsourceNot hne
  have hp := deployable_of_answer hanswer hsourceNot hhosts
  obtain ⟨recs, hexec, hf⟩ := formatLinkList_traced h
  have hserved : ServedOnce w entry tables groupInfo recs
      (recs.reverse.map fun r => modAt entry view.switches groupInfo recs r.1) :=
    servedOnce_of_traced h hf hp hsource htables
  refine ⟨recs, _, hexec, exec_deployFlowTable_of_traced hf hexec hhosts.group hp {}, ?_⟩
  rw [Outbox.mods_push, List.nil_append]
  refine ⟨hserved, fun htree n hn d p => ?_⟩
  rw [hserved.served n hn]
  constructor
  · intro hmember
    exact hmember.1
  · rintro ⟨ports, hports, hp⟩
    have hd : d ∈ entry.dstDpid := (hhosts.members d).mp (Dict.mem_of_get? hports)
    obtain ⟨b, hb, hpath⟩ := exists_branch hanswer hd
    exact ⟨⟨ports, hports, hp⟩,
      leads_of_agree h hf htree.agree hb (List.mem_of_getLast? hpath.last)⟩

/-- The requests for a group, one after the other: what is answered can be deployed, whatever the
draws are and however the links are measured, and no packet of the group is delivered twice. -/
theorem requested_group_once {nx : NetworkX} (hnx : nx.FindsShortest)
    (hconn : nx.DocumentedConnected) (algorithm : AlgorithmTables) (rng : Rng)
    {reqs : List MulticastRequest}
    (hreqs : ∀ r ∈ reqs, Supplies switches.Lists r ∧ entry.IsRequest r)
    (hsourceNot : entry.srcDpid ∉ entry.dstDpid)
    (hhosts : Hosts switches view w entry groupInfo)
    (hsource : w.peer (entry.srcDpid, entry.srcPortNo) = none)
    (htables : ∀ d, FlowTables.NoneFor entry.srcIp entry.dstIp (tables d)) :
    ∀ earlier req, earlier ++ [req] <+: reqs → ∀ answer,
      ((NSGA2.routeCalc nx req).exec
        (Machine.run (NSGA2.step nx) (NSGA2.init algorithm rng) earlier)).1 = .ok answer →
      answer ≠ [] → DeploysOnce entry view w tables groupInfo answer := by
  intro earlier req hearlier answer hexec hne
  have hall : ∀ r ∈ earlier ++ [req], Supplies switches.Lists r ∧ entry.IsRequest r :=
    fun r hr => hreqs r (hearlier.subset hr)
  have hanswers := answersFor_run hnx hconn algorithm rng
    (fun r hr => (hall r (by simp [hr])).1) (hall req (by simp)).1 answer hexec
  obtain hnil | ⟨r, hr, hpaths⟩ := hanswers
  · exact absurd hnil hne
  · obtain ⟨hsrc, hdst⟩ := (hall r hr).2
    rw [hsrc, hdst] at hpaths
    exact deploysOnce_of_answer hpaths hne hsourceNot hhosts hsource htables

/-- A group with one member, on port 201 of switch 2. -/
def memberEntry : MulticastTaskEntry := { triangleEntry with dstDpid := [2] }

def memberGroup : Dict ℕ (Dict ℕ GroupPort) := Dict.set ∅ 2 (Dict.set ∅ 201 {})

def memberView : RouteManageView where
  switches := GATables.triangle
  multicastGroup := Dict.set ∅ "225.0.0.1" memberGroup

theorem hosts_member :
    Hosts GATables.triangle memberView triangleWiring memberEntry memberGroup where
  viewed := rfl
  keyed := hosts_triangle.keyed
  wired := hosts_triangle.wired
  group := by simp [memberView, memberEntry, triangleEntry]
  members d := by simp [memberGroup, memberEntry]
  facing := by
    intro d ports hports p hp
    obtain rfl : p = 201 := by
      simp only [memberGroup, Dict.get?_set, Dict.get?_empty] at hports
      grind [Dict.mem_set, AList.notMem_empty]
    simp [triangleWiring]

theorem supplies_member : Supplies GATables.triangle.Lists (request 1 2) := by
  have hlinks : ∀ item ∈ monitored.items, GATables.triangle.Lists item.1.1 item.1.2 ∧
      ∀ link ∈ item.2.values, link.delay = some 1 ∧ link.pktLoss = some 0 := by decide +kernel
  intro item hitem
  obtain ⟨hlists, hvalues⟩ := hlinks item hitem
  refine ⟨hlists, fun link hlink => ?_⟩
  obtain ⟨hdelay, hloss⟩ := hvalues link hlink
  simp [request, hdelay, hloss]

/-- The first request for the group is answered with the link to the member. -/
theorem requested_group_once_member :
    ((NSGA2.routeCalc shortestNx (request 1 2)).exec (NSGA2.init NSGA2.tables choosingFirst)).1 =
      .ok [[1, 2]] ∧
    DeploysOnce memberEntry memberView triangleWiring (fun _ => []) memberGroup [[1, 2]] := by
  obtain ⟨t, -, hroute⟩ := exec_routeCalc_first shortestNx_findsDirect
  have hanswer := congrArg Prod.fst hroute
  have hreqs : ∀ r ∈ [request 1 2],
      Supplies GATables.triangle.Lists r ∧ memberEntry.IsRequest r := by
    intro r hr
    obtain rfl := List.mem_singleton.mp hr
    exact ⟨supplies_member, rfl, rfl⟩
  refine ⟨hanswer, ?_⟩
  exact requested_group_once shortestNx_findsShortest shortestNx_documentedConnected
    NSGA2.tables choosingFirst hreqs (by decide) hosts_member (by decide)
    (fun d m hm => by cases hm) [] (request 1 2) (List.prefix_refl _) [[1, 2]] hanswer (by decide)

end SDRoute.MulticastTaskEntry
