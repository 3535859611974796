import Vycor.ControlFlow.Basic

/-!
# The channel index

A channel, a queue or a map that several functions put into and take from, has no single
edge in the call graph. `ChannelIndex` stores the call sites that produce into it and consume
from it. The same site registered by several TUs, a function of a header, is one entry with a
count of its registrations. Queries list the live sites in the order in which they were first
stored.
-/

namespace Vycor

/-- `ChannelOperation`. -/
inductive ChannelOperation where
  | produce | consume
  deriving DecidableEq, Repr, Inhabited

/-- `ChannelSite`. -/
structure ChannelSite where
  channelId : Bytes
  channelTypeName : Bytes := []
  category : Bytes := []
  op : ChannelOperation := .produce
  siteFunctionUsr : Bytes := []
  siteFunctionDisplay : Bytes := []
  callSite : Bytes := []
  enclosingGuards : List ConditionalGuard := []
  tuPath : Bytes := []
  deriving DecidableEq, Repr, Inhabited

/-- The site in index text. -/
def ChannelSite.stored (s : ChannelSite) : ChannelSite :=
  { s with
    channelId := toIndexText s.channelId
    channelTypeName := toIndexText s.channelTypeName
    category := toIndexText s.category
    siteFunctionUsr := toIndexText s.siteFunctionUsr
    siteFunctionDisplay := toIndexText s.siteFunctionDisplay
    callSite := toIndexText s.callSite
    tuPath := toIndexText s.tuPath
    enclosingGuards := s.enclosingGuards.map ConditionalGuard.stored }

/-- `ChannelIndex::SiteKey`. -/
structure SiteKey where
  channelId : Bytes
  callSite : Bytes
  siteFunctionUsr : Bytes
  op : ChannelOperation
  deriving DecidableEq, Repr

/-- The key of a site. -/
def ChannelSite.key (s : ChannelSite) : SiteKey :=
  ⟨s.channelId, s.callSite, s.siteFunctionUsr, s.op⟩

/-- `ChannelIndex::StoredSite`. -/
structure StoredSite where
  site : ChannelSite
  refs : ℕ := 0
  live : Bool := true
  deriving DecidableEq, Repr

/-- The state of a `ChannelIndex`; `channelKeys` are the keys of `byChannel`. -/
structure ChannelIndex where
  sites : List StoredSite := []
  index : SiteKey → Option ℕ := fun _ => none
  byChannel : Bytes → List ℕ := fun _ => []
  channelKeys : List Bytes := []
  byFunctionUsr : Bytes → List ℕ := fun _ => []
  byFunctionDisplay : Bytes → List ℕ := fun _ => []
  byTu : Bytes → List ℕ := fun _ => []
  liveCount : ℕ := 0

instance inhabitedChannelIndex : Inhabited ChannelIndex := ⟨{}⟩

/-- A registration of a stored site: the counts add up, the least TU is kept. -/
def StoredSite.again (s : StoredSite) (tuPath : Bytes) (count : ℕ) : StoredSite :=
  { s with
    refs := s.refs + count
    site :=
      if tuPath ≠ [] ∧ (s.site.tuPath = [] ∨ tuPath < s.site.tuPath) then
        { s.site with tuPath := tuPath }
      else s.site }

namespace ChannelIndex

/-- A registration is recorded for its TU. -/
def recordTu (ch : ChannelIndex) (tuPath : Bytes) (count idx : ℕ) : ChannelIndex :=
  if tuPath = [] then ch
  else { ch with
    byTu := Function.update ch.byTu tuPath (ch.byTu tuPath ++ List.replicate count idx) }

/-- `addSiteRefs`. -/
def addSiteRefs (ch : ChannelIndex) (site : ChannelSite) (count : ℕ) : ChannelIndex :=
  if count = 0 then ch
  else
    match ch.index site.key with
    | some idx =>
      let sites := ch.sites.modify idx fun s => s.again site.tuPath count
      ({ ch with sites } : ChannelIndex).recordTu site.tuPath count idx
    | none =>
      let idx := ch.sites.length
      let added : ChannelIndex := { ch with
        sites := ch.sites ++ [⟨site, count, true⟩]
        index := Function.update ch.index site.key (some idx)
        byChannel := pushAt ch.byChannel site.channelId idx
        channelKeys :=
          if site.channelId ∈ ch.channelKeys then ch.channelKeys
          else ch.channelKeys ++ [site.channelId]
        byFunctionUsr := pushAt ch.byFunctionUsr site.siteFunctionUsr idx
        byFunctionDisplay :=
          if site.siteFunctionDisplay ≠ site.siteFunctionUsr then
            pushAt ch.byFunctionDisplay site.siteFunctionDisplay idx
          else ch.byFunctionDisplay
        liveCount := ch.liveCount + 1 }
      added.recordTu site.tuPath count idx

/-- `addSite`. -/
def addSite (ch : ChannelIndex) (site : ChannelSite) : ChannelIndex := ch.addSiteRefs site.stored 1

section Queries

variable (ll : Llvm) (ch : ChannelIndex)

/-- The live sites at some positions. -/
def sitesAt (positions : List ℕ) : List ChannelSite :=
  ((positions.filterMap fun i => ch.sites[i]?).filter (·.live)).map (·.site)

/-- `producersOf`. -/
def producersOf (channelId : Bytes) : List ChannelSite :=
  (ch.sitesAt (ch.byChannel (lookupText ll channelId))).filter (·.op = .produce)

/-- `consumersOf`. -/
def consumersOf (channelId : Bytes) : List ChannelSite :=
  (ch.sitesAt (ch.byChannel (lookupText ll channelId))).filter (·.op = .consume)

/-- `sitesForFunction`. -/
def sitesForFunction (functionUsrOrDisplay : Bytes) : List ChannelSite :=
  let key := lookupText ll functionUsrOrDisplay
  ch.sitesAt (ch.byFunctionUsr key) ++ ch.sitesAt (ch.byFunctionDisplay key)

/-- `allChannelIds`. -/
def allChannelIds : List Bytes :=
  ch.channelKeys.filter fun id => (ch.sitesAt (ch.byChannel id)) ≠ []

/-- `allSites`. -/
def allSites : List ChannelSite := (ch.sites.filter (·.live)).map (·.site)

end Queries

end ChannelIndex

end Vycor
