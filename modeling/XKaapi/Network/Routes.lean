/-
The routing table (network/kanet_network.cpp).

`_gid2channel` caches the channel of a node; a lookup that finds none there
tries the urls of the node one after the other. `ListUrls` is a set of
`const char*`: it is ordered by the addresses that `strdup` returns, so that
two copies of one url are two elements, and a new one may come anywhere. It
is a list here, and `add_node` is told the place.

`get_device_from_url` reads the name of the device in a string that has just
been destroyed; what it finds there is `UrlDevices.freed`.

The table that all this is for, `RouteTable`, is a map from the nodes to
their channels, and what each call may do to it (`RouteTable.Allows`).
-/
import Mathlib.Data.Set.Insert
import XKaapi.Lib.Run

namespace XKaapi.Network

-- ======== devices

/-- The devices of a network, and what is left of a destroyed string. -/
structure UrlDevices (δ : Type) where
  name2device : List Char → Option δ
  freed : List Char → List Char

/-- What stands before the first ':' of a url. -/
def urlDevice (url : List Char) : Option (List Char) :=
  if ':' ∈ url then some (url.takeWhile (· ≠ ':')) else none

/-- The device that a url names. -/
def UrlDevices.named {δ : Type} (env : UrlDevices δ) (url : List Char) : Option δ :=
  (urlDevice url).bind env.name2device

/-- `get_device_from_url` -/
def UrlDevices.getDeviceFromUrl {δ : Type} (env : UrlDevices δ) (url : List Char) : Option δ :=
  match urlDevice url with
  | none => none
  | some name => env.name2device (env.freed name)

-- ======== the calls

section

variable {δ γ χ : Type}

/-- The tables of a network: the urls of each node, the channels, and the
peer that `set_peer` gives to a channel. -/
structure Routing (γ χ : Type) where
  gid2urls : γ → Option (List (List Char))
  gid2channel : γ → Option χ
  peer : χ → Option (γ × List Char)

def Routing.init : Routing γ χ where
  gid2urls _ := none
  gid2channel _ := none
  peer _ := none

/-- What a call returns (0 when it returns nothing), and the channels it
has asked for. -/
structure RouteReply (δ χ : Type) where
  channel : Option χ
  tried : List (δ × List Char)
deriving DecidableEq, Repr

def RouteReply.nothing : RouteReply δ χ where
  channel := none
  tried := []

/-- Why a call does not return. -/
inductive RouteStop
  | assertion
  | undefined
  | forever
deriving DecidableEq, Repr

/-- The calls. A channel may be 0; `place` is where the copy of the url
comes, `answer` what `open_channel` answers, time after time. -/
inductive RouteCall (γ χ : Type)
  | addNode (gid : γ) (url : List Char) (place : Nat)
  | addRoute (gid : γ) (channel : Option χ)
  | delRoute (gid : γ) (channel : Option χ)
  | setDefaultLocalRoute (gid : γ) (channel : Option χ)
  | getDefaultLocalRoute (gid : γ) (answer : Nat → Option χ)

/-- The loop over the urls, with `fuel` rounds: the channel that is opened
and its url. A url without a device is not left. -/
def lookupLoop (env : UrlDevices δ) (answer : Nat → Option χ) :
    Nat → List (List Char) → List (δ × List Char) →
      Option (Option (χ × List Char) × List (δ × List Char))
  | 0, _, _ => none
  | _ + 1, [], tried => some (none, tried)
  | fuel + 1, url :: urls, tried =>
    match env.getDeviceFromUrl url with
    | none => lookupLoop env answer fuel (url :: urls) tried
    | some device =>
      match answer tried.length with
      | some channel => some (some (channel, url), tried ++ [(device, url)])
      | none => lookupLoop env answer fuel urls (tried ++ [(device, url)])

namespace Routing

variable [DecidableEq γ] [DecidableEq χ]

/-- `add_node` -/
def addNode (s : Routing γ χ) (gid : γ) (url : List Char) (place : Nat) : Routing γ χ :=
  let listurls := (s.gid2urls gid).getD []
  let listurls' := listurls.take place ++ url :: listurls.drop place
  { s with gid2urls := Function.update s.gid2urls gid (some listurls') }

/-- The insertion in `_gid2channel`, or the store in the element found. -/
def setChannel (s : Routing γ χ) (gid : γ) (channel : χ) : Routing γ χ :=
  { s with gid2channel := Function.update s.gid2channel gid (some channel) }

/-- `add_route` -/
def addRoute (s : Routing γ χ) (gid : γ) : Option χ → Except RouteStop (Routing γ χ)
  | none => .ok s
  | some channel =>
    match s.gid2channel gid with
    | some _ => .error .assertion
    | none => .ok (s.setChannel gid channel)

/-- `del_route`: what is erased is the end of the map. -/
def delRoute (s : Routing γ χ) (gid : γ) : Option χ → Except RouteStop (Routing γ χ)
  | none => .ok s
  | some _ =>
    match s.gid2channel gid with
    | some _ => .ok s
    | none => .error .undefined

/-- `set_default_local_route` -/
def setDefaultLocalRoute (s : Routing γ χ) (gid : γ) : Option χ → Routing γ χ
  | none => s
  | some channel => s.setChannel gid channel

/-- `get_default_local_route`. A loop that has not ended after one round for
each url and one more does not end (`lookupLoop_ends_iff`). -/
def getDefaultLocalRoute (env : UrlDevices δ) (s : Routing γ χ) (gid : γ)
    (answer : Nat → Option χ) : Except RouteStop (Routing γ χ × RouteReply δ χ) :=
  match s.gid2channel gid with
  | some channel => .ok (s, ⟨some channel, []⟩)
  | none =>
    match s.gid2urls gid with
    | none => .ok (s, .nothing)
    | some listurls =>
      match lookupLoop env answer (listurls.length + 1) listurls [] with
      | none => .error .forever
      | some (none, tried) => .ok (s, ⟨none, tried⟩)
      | some (some (channel, url), tried) =>
        let s' := { s with peer := Function.update s.peer channel (some (gid, url)) }
        .ok (s'.setChannel gid channel, ⟨some channel, tried⟩)

def call (env : UrlDevices δ) (s : Routing γ χ) :
    RouteCall γ χ → Except RouteStop (Routing γ χ × RouteReply δ χ)
  | .addNode gid url place => .ok (s.addNode gid url place, .nothing)
  | .addRoute gid channel => (s.addRoute gid channel).map (·, .nothing)
  | .delRoute gid channel => (s.delRoute gid channel).map (·, .nothing)
  | .setDefaultLocalRoute gid channel => .ok (s.setDefaultLocalRoute gid channel, .nothing)
  | .getDefaultLocalRoute gid answer => s.getDefaultLocalRoute env gid answer

end Routing

/-- The tables, and the calls that have returned. -/
structure RouteRun (δ γ χ : Type) where
  net : Routing γ χ
  log : List (RouteCall γ χ × RouteReply δ χ)

def RouteRun.init : RouteRun δ γ χ where
  net := .init
  log := []

def RouteRun.step [DecidableEq γ] [DecidableEq χ] (env : UrlDevices δ) (a : RouteCall γ χ)
    (s : RouteRun δ γ χ) : Option (RouteRun δ γ χ) :=
  match s.net.call env a with
  | .error _ => none
  | .ok (net, r) => some ⟨net, s.log ++ [(a, r)]⟩

-- ======== the table

/-- What a routing table is: the channel of each node, if it has one, and
the urls known for it. -/
@[ext]
structure RouteTable (γ χ : Type) where
  routes : γ → Option χ
  urls : γ → Set (List Char)

namespace RouteTable

def empty : RouteTable γ χ where
  routes _ := none
  urls _ := ∅

variable [DecidableEq γ]

def setRoute (t : RouteTable γ χ) (gid : γ) (channel : Option χ) : RouteTable γ χ :=
  { t with routes := Function.update t.routes gid channel }

def addUrl (t : RouteTable γ χ) (gid : γ) (url : List Char) : RouteTable γ χ :=
  { t with urls := Function.update t.urls gid (insert url (t.urls gid)) }

/-- A lookup for a node without a route: the urls of the node that name a
device are tried, each once at most, up to the first that opens; the channel
becomes the route. -/
structure Looked (env : UrlDevices δ) (t : RouteTable γ χ) (gid : γ) (answer : Nat → Option χ)
    (r : RouteReply δ χ) (t' : RouteTable γ χ) : Prop where
  once : (r.tried.map Prod.snd).Nodup
  known : ∀ p ∈ r.tried, p.2 ∈ t.urls gid ∧ env.named p.2 = some p.1
  opened : ∀ channel, r.channel = some channel →
    ∃ n, r.tried.length = n + 1 ∧ (∀ i < n, answer i = none) ∧ answer n = some channel
      ∧ t' = t.setRoute gid (some channel)
  refused : r.channel = none →
    (∀ i < r.tried.length, answer i = none) ∧ t' = t
      ∧ ∀ url ∈ t.urls gid, ∀ device, env.named url = some device → (device, url) ∈ r.tried

/-- What a call may do. There is no channel 0: a call with it leaves the
table as it is. -/
def Allows (env : UrlDevices δ) (t : RouteTable γ χ) :
    RouteCall γ χ → RouteReply δ χ → RouteTable γ χ → Prop
  | .addNode gid url _, r, t' => r = .nothing ∧ t' = t.addUrl gid url
  | .addRoute _ none, r, t' => r = .nothing ∧ t' = t
  | .addRoute gid (some channel), r, t' => r = .nothing ∧ t' = t.setRoute gid (some channel)
  | .delRoute _ none, r, t' => r = .nothing ∧ t' = t
  | .delRoute gid (some _), r, t' => r = .nothing ∧ t' = t.setRoute gid none
  | .setDefaultLocalRoute _ none, r, t' => r = .nothing ∧ t' = t
  | .setDefaultLocalRoute gid (some channel), r, t' =>
    r = .nothing ∧ t' = t.setRoute gid (some channel)
  | .getDefaultLocalRoute gid answer, r, t' =>
    match t.routes gid with
    | some channel => r = ⟨some channel, []⟩ ∧ t' = t
    | none => Looked env t gid answer r t'

/-- The calls and their replies are those of the table. -/
def Explains (env : UrlDevices δ) :
    List (RouteCall γ χ × RouteReply δ χ) → RouteTable γ χ → RouteTable γ χ → Prop
  | [], t, t' => t' = t
  | (a, r) :: log, t, t' => ∃ u, t.Allows env a r u ∧ Explains env log u t'

end RouteTable

/-- The table that a network holds. -/
def Routing.table (s : Routing γ χ) : RouteTable γ χ where
  routes := s.gid2channel
  urls gid := { url | url ∈ (s.gid2urls gid).getD [] }

end

end XKaapi.Network
