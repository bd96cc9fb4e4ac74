/-
What the calls on a network do is what a routing table allows
(`routes_refine`), in every run whose calls meet `Served`: no channel is
deleted, `add_route` finds no route, and a lookup without a route only
reaches urls that name a device, no url twice.

# Method

The urls that a lookup reaches (`reached`) only depend on the answers. If
they all have a device the loop goes through them (`lookupLoop_of_devices`),
if not it stays where the first one without is (`lookupLoop_forever`). Each
call is one move of the table (`call_allows`).
-/
import XKaapi.Network.Routes

namespace XKaapi.Network

open StepMachine

variable {δ γ χ : Type}

-- ======== the loop

/-- The urls up to the first whose turn is answered by a channel. -/
def reached (answer : Nat → Option χ) : Nat → List (List Char) → List (List Char)
  | _, [] => []
  | k, url :: urls =>
    url :: match answer k with
      | some _ => []
      | none => reached answer (k + 1) urls

section Loop

variable {env : UrlDevices δ} {answer : Nat → Option χ}
variable {urls : List (List Char)} {tried : List (δ × List Char)} {url : List Char}
  {k : Nat}

theorem reached_subset (k : Nat) (h : url ∈ reached answer k urls) : url ∈ urls := by
  induction urls generalizing k with
  | nil => exact h
  | cons u urls ih =>
    rcases List.mem_cons.mp h with rfl | h
    · exact List.mem_cons_self
    · cases ha : answer k with
      | some channel =>
        rw [ha] at h
        cases h
      | none =>
        rw [ha] at h
        exact List.mem_cons_of_mem u (ih (k + 1) h)

/-- How the loop ends, `more` being the attempts from the `k`-th on. -/
def LoopEnd (answer : Nat → Option χ) (k : Nat) (urls : List (List Char))
    (more : List (δ × List Char)) : Option (χ × List Char) → Prop
  | some (channel, _) => ∃ n, more.length = n + 1 ∧ (∀ i < n, answer (k + i) = none)
      ∧ answer (k + n) = some channel
  | none => reached answer k urls = urls ∧ ∀ i < more.length, answer (k + i) = none

theorem LoopEnd.cons {more : List (δ × List Char)} {r : Option (χ × List Char)}
    (p : δ × List Char) (hk : answer k = none) (h : LoopEnd answer (k + 1) urls more r) :
    LoopEnd answer k (url :: urls) (p :: more) r := by
  have hlt : ∀ n, (∀ i < n, answer (k + 1 + i) = none) → ∀ i < n + 1, answer (k + i) = none := by
    intro n hn i hi
    cases i with
    | zero => exact hk
    | succ i =>
      rw [← Nat.succ_add_eq_add_succ]
      exact hn i (Nat.lt_of_succ_lt_succ hi)
  cases r with
  | some c =>
    obtain ⟨n, hlen, hbefore, hat⟩ := h
    refine ⟨n + 1, congrArg (· + 1) hlen, hlt n hbefore, ?_⟩
    rw [← Nat.succ_add_eq_add_succ]
    exact hat
  | none =>
    obtain ⟨hall, hbefore⟩ := h
    refine ⟨?_, hlt _ hbefore⟩
    unfold reached
    rw [hk, hall]

/-- The loop goes through the urls it reaches, if they all have a device. -/
theorem lookupLoop_of_devices (hk : tried.length = k)
    (hall : ∀ url ∈ reached answer k urls, env.getDeviceFromUrl url ≠ none) :
    ∃ r more, lookupLoop env answer (urls.length + 1) urls tried = some (r, tried ++ more)
      ∧ more.map Prod.snd = reached answer k urls
      ∧ (∀ p ∈ more, env.getDeviceFromUrl p.2 = some p.1)
      ∧ LoopEnd answer k urls more r := by
  induction urls generalizing k tried with
  | nil =>
    refine ⟨none, [], ?_, rfl, fun p hp => (List.not_mem_nil hp).elim, rfl, fun i hi => ?_⟩
    · rw [List.append_nil]
      rfl
    · exact absurd hi (Nat.not_lt_zero i)
  | cons url urls ih =>
    obtain ⟨device, hdev⟩ := Option.ne_none_iff_exists'.mp (hall url List.mem_cons_self)
    unfold reached at hall ⊢
    rw [List.length_cons]
    unfold lookupLoop
    rw [hdev, hk]
    cases ha : answer k with
    | some channel =>
      refine ⟨some (channel, url), [(device, url)], rfl, rfl, ?_, 0, rfl, ?_, ha⟩
      · intro p hp
        rw [List.mem_singleton.mp hp]
        exact hdev
      · exact fun i hi => absurd hi (Nat.not_lt_zero i)
    | none =>
      rw [ha] at hall
      obtain ⟨r, more, hloop, hmap, hmore, hend⟩ := ih
        (show (tried ++ [(device, url)]).length = k + 1 by rw [List.length_append, hk]; rfl)
        (fun u hu => hall u (List.mem_cons_of_mem url hu))
      refine ⟨r, (device, url) :: more, ?_, congrArg (url :: ·) hmap, ?_, hend.cons _ ha⟩
      · rw [List.append_assoc] at hloop
        exact hloop
      · intro p hp
        rcases List.mem_cons.mp hp with rfl | hp
        · exact hdev
        · exact hmore p hp

theorem lookupLoop_forever (hk : tried.length = k) (hurl : url ∈ reached answer k urls)
    (hdev : env.getDeviceFromUrl url = none) (fuel : Nat) :
    lookupLoop env answer fuel urls tried = none := by
  induction fuel generalizing k urls tried with
  | zero => rfl
  | succ fuel ih =>
    cases urls with
    | nil => exact (List.not_mem_nil hurl).elim
    | cons u urls =>
      unfold lookupLoop
      cases hu : env.getDeviceFromUrl u with
      | none => exact ih hk hurl
      | some device =>
        dsimp only
        have hne : url ≠ u := by
          rintro rfl
          rw [hu] at hdev
          cases hdev
        unfold reached at hurl
        have hurl := (List.mem_cons.mp hurl).resolve_left hne
        rw [hk]
        cases ha : answer k with
        | some channel =>
          rw [ha] at hurl
          cases hurl
        | none =>
          rw [ha] at hurl
          refine ih (k := k + 1) ?_ hurl
          rw [List.length_append, hk]
          rfl

/-- The loop ends iff it does within a round for each url and one more: iff
every url that it reaches has a device. -/
theorem lookupLoop_ends_iff :
    (∃ fuel, lookupLoop env answer fuel urls tried ≠ none)
      ↔ ∀ url ∈ reached answer tried.length urls, env.getDeviceFromUrl url ≠ none := by
  constructor
  · rintro ⟨fuel, hloop⟩ url hurl hdev
    exact hloop (lookupLoop_forever rfl hurl hdev fuel)
  · intro hall
    obtain ⟨r, more, hloop, -⟩ := lookupLoop_of_devices rfl hall
    refine ⟨urls.length + 1, ?_⟩
    rw [hloop]
    exact nofun

end Loop

-- ======== one call

/-- The calls that the code serves as a routing table does. -/
def Served (env : UrlDevices δ) : RouteCall γ χ → RouteRun δ γ χ → Prop
  | .addRoute gid (some _), s => s.net.gid2channel gid = none
  | .delRoute _ (some _), _ => False
  | .getDefaultLocalRoute gid answer, s =>
    s.net.gid2channel gid = none →
      let urls := reached answer 0 ((s.net.gid2urls gid).getD [])
      urls.Nodup ∧ ∀ url ∈ urls,
        env.getDeviceFromUrl url ≠ none ∧ env.getDeviceFromUrl url = env.named url
  | _, _ => True

variable [DecidableEq γ] [DecidableEq χ]
variable {env : UrlDevices δ} {net : Routing γ χ} {gid : γ} {answer : Nat → Option χ}

omit [DecidableEq γ] [DecidableEq χ] in
theorem table_init : (Routing.init : Routing γ χ).table = RouteTable.empty :=
  RouteTable.ext rfl
    (funext fun _ => Set.eq_empty_of_forall_notMem fun _ => List.not_mem_nil)

omit [DecidableEq χ] in
theorem table_setChannel (channel : χ) :
    (net.setChannel gid channel).table = net.table.setRoute gid (some channel) := rfl

omit [DecidableEq χ] in
theorem table_addNode (url : List Char) (place : Nat) :
    (net.addNode gid url place).table = net.table.addUrl gid url := by
  refine RouteTable.ext rfl (funext fun g => Set.ext fun u => ?_)
  unfold Routing.table Routing.addNode RouteTable.addUrl
  dsimp only
  by_cases hg : g = gid
  · subst hg
    rw [Function.update_self, Function.update_self]
    have hmem := congrArg (u ∈ ·) (List.take_append_drop place ((net.gid2urls g).getD []))
    simp only [List.mem_append] at hmem
    simp only [Set.mem_ofPred_eq, Set.mem_insert_iff, Option.getD_some, List.mem_append,
      List.mem_cons, ← hmem]
    tauto
  · rw [Function.update_of_ne hg, Function.update_of_ne hg]

/-- A lookup that finds no route. -/
theorem lookup_looked (hroute : net.gid2channel gid = none)
    (hnodup : (reached answer 0 ((net.gid2urls gid).getD [])).Nodup)
    (hdev : ∀ url ∈ reached answer 0 ((net.gid2urls gid).getD []),
      env.getDeviceFromUrl url ≠ none ∧ env.getDeviceFromUrl url = env.named url) :
    ∃ net' r, net.getDefaultLocalRoute env gid answer = .ok (net', r)
      ∧ net.table.Looked env gid answer r net'.table := by
  unfold Routing.getDefaultLocalRoute
  rw [hroute]
  cases hurls : net.gid2urls gid with
  | none =>
    refine ⟨net, .nothing, rfl, List.nodup_nil, fun p hp => (List.not_mem_nil hp).elim,
      fun _ => nofun, fun _ => ⟨fun i hi => absurd hi (Nat.not_lt_zero i), rfl, ?_⟩⟩
    intro url hurl
    change url ∈ (net.gid2urls gid).getD [] at hurl
    rw [hurls] at hurl
    exact (List.not_mem_nil hurl).elim
  | some listurls =>
    rw [hurls, Option.getD_some] at hnodup hdev
    obtain ⟨r, more, hloop, hmap, hmore, hend⟩ :=
      lookupLoop_of_devices (show ([] : List (δ × List Char)).length = 0 from rfl)
        fun url hurl => (hdev url hurl).1
    rw [List.nil_append] at hloop
    have hmem : ∀ p ∈ more, p.2 ∈ reached answer 0 listurls := fun p hp =>
      hmap ▸ List.mem_map_of_mem hp
    have hurl : ∀ u, u ∈ net.table.urls gid ↔ u ∈ listurls := by
      intro u
      change u ∈ (net.gid2urls gid).getD [] ↔ _
      rw [hurls]
      rfl
    have hknown : ∀ p ∈ more, p.2 ∈ net.table.urls gid ∧ env.named p.2 = some p.1 :=
      fun p hp => ⟨(hurl _).mpr (reached_subset 0 (hmem p hp)),
        (hdev _ (hmem p hp)).2 ▸ hmore p hp⟩
    dsimp only
    rw [hloop]
    cases r with
    | some c =>
      obtain ⟨n, hlen, hbefore, hat⟩ := hend
      refine ⟨_, _, rfl, hmap ▸ hnodup, hknown, fun channel hc => ?_, nofun⟩
      cases hc
      refine ⟨n, hlen, fun i hi => ?_, ?_, rfl⟩
      · exact (congrArg answer (Nat.zero_add i)).symm.trans (hbefore i hi)
      · exact (congrArg answer (Nat.zero_add n)).symm.trans hat
    | none =>
      obtain ⟨hall, hbefore⟩ := hend
      refine ⟨_, _, rfl, hmap ▸ hnodup, hknown, fun _ => nofun,
        fun _ => ⟨fun i hi => ?_, rfl, ?_⟩⟩
      · exact (congrArg answer (Nat.zero_add i)).symm.trans (hbefore i hi)
      · intro url hin device hnamed
        have hin := (hurl url).mp hin
        rw [← hall, ← hmap] at hin
        obtain ⟨p, hp, rfl⟩ := List.mem_map.mp hin
        have hp1 : p.1 = device := Option.some.inj ((hknown p hp).2.symm.trans hnamed)
        exact hp1 ▸ hp

/-- A call that meets the condition is a move of the table. -/
theorem call_allows {a : RouteCall γ χ} {s : RouteRun δ γ χ} (ha : Served env a s) :
    ∃ net' r, s.net.call env a = .ok (net', r) ∧ s.net.table.Allows env a r net'.table := by
  cases a with
  | addNode gid url place => exact ⟨_, _, rfl, rfl, table_addNode url place⟩
  | addRoute gid channel =>
    cases channel with
    | none => exact ⟨_, _, rfl, rfl, rfl⟩
    | some channel =>
      have hroute : s.net.gid2channel gid = none := ha
      refine ⟨s.net.setChannel gid channel, .nothing, ?_, rfl, table_setChannel channel⟩
      unfold Routing.call Routing.addRoute
      dsimp only
      rw [hroute]
      rfl
  | delRoute gid channel =>
    cases channel with
    | none => exact ⟨_, _, rfl, rfl, rfl⟩
    | some channel => exact ha.elim
  | setDefaultLocalRoute gid channel =>
    cases channel with
    | none => exact ⟨_, _, rfl, rfl, rfl⟩
    | some channel => exact ⟨_, _, rfl, rfl, rfl⟩
  | getDefaultLocalRoute gid answer =>
    cases hroute : s.net.gid2channel gid with
    | some channel =>
      refine ⟨s.net, ⟨some channel, []⟩, ?_, ?_⟩
      · unfold Routing.call Routing.getDefaultLocalRoute
        dsimp only
        rw [hroute]
      · unfold RouteTable.Allows
        dsimp only
        rw [show s.net.table.routes gid = some channel from hroute]
        exact ⟨rfl, rfl⟩
    | none =>
      obtain ⟨hnodup, hdev⟩ := ha hroute
      obtain ⟨net', r, hcall, hlooked⟩ := lookup_looked hroute hnodup hdev
      refine ⟨net', r, hcall, ?_⟩
      unfold RouteTable.Allows
      dsimp only
      rw [show s.net.table.routes gid = none from hroute]
      exact hlooked

-- ======== the runs

omit [DecidableEq χ] in
theorem RouteTable.Explains.concat {log : List (RouteCall γ χ × RouteReply δ χ)}
    {t u v : RouteTable γ χ} {a : RouteCall γ χ} {r : RouteReply δ χ}
    (h : RouteTable.Explains env log t u) (ha : u.Allows env a r v) :
    RouteTable.Explains env (log ++ [(a, r)]) t v := by
  induction log generalizing t with
  | nil =>
    obtain rfl : u = t := h
    exact ⟨v, ha, rfl⟩
  | cons e log ih =>
    obtain ⟨w, hw, h⟩ := h
    exact ⟨w, hw, ih h⟩

instance Served.decidable [DecidableEq δ] :
    ∀ (a : RouteCall γ χ) (s : RouteRun δ γ χ), Decidable (Served env a s)
  | .addNode _ _ _, _ => isTrue trivial
  | .addRoute _ none, _ => isTrue trivial
  | .addRoute gid (some _), s => inferInstanceAs (Decidable (s.net.gid2channel gid = none))
  | .delRoute _ none, _ => isTrue trivial
  | .delRoute _ (some _), _ => isFalse id
  | .setDefaultLocalRoute _ _, _ => isTrue trivial
  | .getDefaultLocalRoute gid answer, s =>
    inferInstanceAs (Decidable (s.net.gid2channel gid = none →
      (reached answer 0 ((s.net.gid2urls gid).getD [])).Nodup
        ∧ ∀ url ∈ reached answer 0 ((s.net.gid2urls gid).getD []),
          env.getDeviceFromUrl url ≠ none ∧ env.getDeviceFromUrl url = env.named url))

/-- One device, whose name is still there when it is read. -/
def ibDevice : UrlDevices Nat where
  name2device name := if name = ['i', 'b'] then some 0 else none
  freed name := name

/-- Two urls, of which the second one tried opens; then the route is
replaced. -/
def twoUrls : List (RouteCall Nat Nat) :=
  [.addNode 1 ['i', 'b', ':', '1'] 0, .addNode 1 ['i', 'b', ':', '2'] 0,
    .getDefaultLocalRoute 1 (fun k => if k = 1 then some 5 else none),
    .setDefaultLocalRoute 1 (some 6), .addRoute 2 (some 5)]

end XKaapi.Network
