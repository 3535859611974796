import Vycor.Channels.Absorb
import Vycor.Channels.Compact
import Vycor.Snapshot.Records

/-!
# The channels section of a snapshot

A snapshot keeps the live sites of a channel index, each with the number of its registrations
and the TUs that made them. What a load for changes builds from the bytes has the ledger of the
index that was saved (`Inv.loadChannels`).
-/

namespace Vycor

open Reader

/-! ### Writing -/

/-- The byte of a channel operation. -/
def ChannelOperation.byte : ChannelOperation → UInt8
  | .produce => 0
  | .consume => 1

/-- A live site with the TUs of its registrations. -/
def putChannelSite (se : StoredSite) (tus : List Bytes) : Bytes :=
  [putStr se.site.channelId, putStr se.site.channelTypeName, putStr se.site.category,
    putU8 se.site.op.byte, putStr se.site.siteFunctionUsr, putStr se.site.siteFunctionDisplay,
    putStr se.site.callSite, putU32 (UInt32.ofNat se.refs),
    putCounted putGuard se.site.enclosingGuards, putCounted putStr tus].flatten

namespace ChannelIndex

/-- The channels section that `SnapshotIO::save` writes. `tuOrder` are the keys of `byTu` in the
order the map yields them. -/
def saveChannels (ch : ChannelIndex) (tuOrder : List Bytes) : Bytes :=
  putU32 (UInt32.ofNat ch.liveCount) ++
    ch.liveSites.flatMap fun p => putChannelSite p.1
      (if p.1.refs ≠ 0 then ch.siteTus tuOrder p.2 else [])

end ChannelIndex

/-! ### Reading -/

/-- `static_cast<ChannelOperation>` of a byte that was written. -/
def ChannelOperation.ofByte (b : UInt8) : ChannelOperation := if b = 0 then .produce else .consume

/-- A record of the section: the site, `refs` and `tus`. -/
structure ChannelRecord where
  site : ChannelSite
  refs : UInt32
  tus : List Bytes
  deriving DecidableEq, Repr

/-- A site cannot have fewer registrations than contributors. -/
def ChannelRecord.sound (r : ChannelRecord) : Bool := r.refs ≠ 0 && r.tus.length ≤ r.refs.toNat

/-- A record. -/
def readChannelRecord (ll : Llvm) : Read ChannelRecord := do
  let channelId ← indexText ll
  let channelTypeName ← indexText ll
  let category ← indexText ll
  let op ← u8
  let siteFunctionUsr ← indexText ll
  let siteFunctionDisplay ← indexText ll
  let callSite ← indexText ll
  let refs ← u32
  let enclosingGuards ← countedIn (readGuard ll)
  let tus ← countedIn (indexText ll)
  return {
    site := {
      channelId, channelTypeName, category
      op := ChannelOperation.ofByte op
      siteFunctionUsr, siteFunctionDisplay, callSite, enclosingGuards
      tuPath := tus.headD [] }
    refs, tus }

namespace ChannelIndex

/-- A record is stored by a load for changes. -/
def loadSite (ch : ChannelIndex) (r : ChannelRecord) : ChannelIndex :=
  let idx := ch.sites.length
  { ch with
    sites := ch.sites ++ [⟨r.site, r.refs.toNat, true⟩]
    index :=
      -- `emplace` keeps an entry that is there
      match ch.index r.site.key with
      | some _ => ch.index
      | none => Function.update ch.index r.site.key (some idx)
    byChannel := pushAt ch.byChannel r.site.channelId idx
    channelKeys :=
      if r.site.channelId ∈ ch.channelKeys then ch.channelKeys
      else ch.channelKeys ++ [r.site.channelId]
    byFunctionUsr := pushAt ch.byFunctionUsr r.site.siteFunctionUsr idx
    byFunctionDisplay :=
      if r.site.siteFunctionDisplay ≠ r.site.siteFunctionUsr then
        pushAt ch.byFunctionDisplay r.site.siteFunctionDisplay idx
      else ch.byFunctionDisplay
    byTu := r.tus.foldl (fun m tu => pushAt m tu idx) ch.byTu
    liveCount := ch.liveCount + 1 }

/-- The channels section in `SnapshotIO::load`, for a load in mutable mode. -/
def loadChannels (ll : Llvm) (bytes : Bytes) : Option ChannelIndex :=
  (decodeSection (countedIn (checked (readChannelRecord ll) ChannelRecord.sound)) bytes).map
    (·.foldl loadSite {})

end ChannelIndex

/-! ### The texts of a site -/

/-- The strings of a site but for its TU. -/
def ChannelSite.texts (s : ChannelSite) : List Bytes :=
  [s.channelId, s.channelTypeName, s.category, s.siteFunctionUsr, s.siteFunctionDisplay,
    s.callSite] ++ s.enclosingGuards.flatMap ConditionalGuard.texts

/-- All strings are valid UTF-8. -/
def ChannelSite.IsText (s : ChannelSite) : Prop := ∀ t ∈ s.texts, Utf8Text t

/-- All lengths fit the 32-bit fields of the format. -/
def ChannelSite.Fits (s : ChannelSite) : Prop :=
  (∀ t ∈ s.texts, t.length < 2 ^ 32) ∧ s.enclosingGuards.length < 2 ^ 32

/-- What `addSite` stores is text. -/
theorem ChannelSite.isText_stored (s : ChannelSite) : s.stored.IsText := by
  intro t ht
  simp only [ChannelSite.texts, ChannelSite.stored, List.cons_append, List.nil_append,
    List.mem_cons, List.mem_flatMap, List.mem_map, exists_exists_and_eq_and,
    ConditionalGuard.texts, ConditionalGuard.stored, List.not_mem_nil, or_false] at ht
  rcases ht with rfl | rfl | rfl | rfl | rfl | rfl | ⟨g, -, rfl | rfl⟩ <;>
    exact utf8Text_toIndexText _

/-! ### Round trip -/

section Codec

variable {ll : Llvm}

theorem ChannelOperation.ofByte_byte (op : ChannelOperation) : ofByte op.byte = op := by
  cases op <;> rfl

/-- The record of a site. -/
def channelRecord (se : StoredSite) (tus : List Bytes) : ChannelRecord where
  site := { se.site with tuPath := tus.headD [] }
  refs := UInt32.ofNat se.refs
  tus := tus

theorem codes_channelRecord (hll : ll.AcceptsUtf8) {se : StoredSite} {tus : List Bytes}
    (hsite : se.site.IsText) (htus : ∀ tu ∈ tus, Utf8Text tu) :
    Codes (se.site.Fits ∧ tus.length < 2 ^ 32 ∧ ∀ tu ∈ tus, tu.length < 2 ^ 32)
      (readChannelRecord ll) (putChannelSite se tus) (channelRecord se tus) := by
  have htext {t : Bytes} (ht : t ∈ se.site.texts) :
      Codes (t.length < 2 ^ 32) (indexText ll) (putStr t) t :=
    Codes.indexText (hll t (hsite t ht))
  have hguards := Codes.countedIn (l := se.site.enclosingGuards)
    (fun g hg => codes_guard hll fun t ht => hsite t (by
      simp only [ChannelSite.texts, List.mem_append, List.mem_flatMap]
      exact .inr ⟨g, hg, ht⟩))
    fun g => flatten_str_ne_nil _ _
  have htuList := Codes.countedIn (l := tus)
    (fun tu htu => Codes.indexText (hll tu (htus tu htu))) putStr_not_nil
  apply Codes.congr
  · apply Codes.field (htext (by simp [ChannelSite.texts]))
    apply Codes.field (htext (by simp [ChannelSite.texts]))
    apply Codes.field (htext (by simp [ChannelSite.texts]))
    apply Codes.field (Codes.u8 _)
    apply Codes.field (htext (by simp [ChannelSite.texts]))
    apply Codes.field (htext (by simp [ChannelSite.texts]))
    apply Codes.field (htext (by simp [ChannelSite.texts]))
    apply Codes.field (Codes.u32 _)
    apply Codes.field hguards
    apply Codes.field htuList
    rw [ChannelOperation.ofByte_byte]
    exact Codes.done _
  · simp only [ChannelSite.Fits, ChannelSite.texts, List.mem_append, List.mem_cons, List.not_mem_nil,
      or_false, List.mem_flatMap, true_and, and_true]
    constructor
    · rintro ⟨h₁, h₂, h₃, h₄, h₅, h₆, ⟨hlen, hguards⟩, htus⟩
      refine ⟨⟨fun t ht => ?_, hlen⟩, htus⟩
      rcases ht with (rfl | rfl | rfl | rfl | rfl | rfl) | ⟨g, hg, ht⟩
      · exact h₁
      · exact h₂
      · exact h₃
      · exact h₄
      · exact h₅
      · exact h₆
      · exact hguards g hg t ht
    · rintro ⟨⟨hfits, hlen⟩, htus⟩
      exact ⟨hfits _ (by simp), hfits _ (by simp), hfits _ (by simp), hfits _ (by simp),
        hfits _ (by simp), hfits _ (by simp), ⟨hlen, fun g hg t ht => hfits t (.inr ⟨g, hg, ht⟩)⟩,
        htus⟩

end Codec

namespace ChannelIndex

variable {ll : Llvm} {ch : ChannelIndex} {regs : List SiteRegistration} {tuOrder : List Bytes}

/-- Every site is text, and so is every TU. -/
structure IsText (ch : ChannelIndex) (regs : List SiteRegistration) : Prop where
  site : ∀ i s, ch.LiveAt i s → s.site.IsText
  tu : ∀ r ∈ regs, Utf8Text r.2

/-- The numbers and lengths the section has to hold fit 32 bits. -/
structure SectionFits (ch : ChannelIndex) (tuOrder : List Bytes) : Prop where
  sites : ch.liveCount < 2 ^ 32
  site : ∀ i s, ch.LiveAt i s → s.site.Fits ∧ s.refs < 2 ^ 32 ∧
    ∀ tu ∈ ch.siteTus tuOrder i, tu.length < 2 ^ 32

theorem map_fst_liveSites : ch.liveSites.map Prod.fst = ch.sites.filter (·.live) := by
  conv_rhs => rw [← List.zipIdx_map_fst 0 ch.sites]
  rw [List.filter_map]
  rfl

theorem Inv.length_liveSites (h : ch.Inv regs) : ch.liveSites.length = ch.liveCount := by
  rw [h.liveCount, List.countP_eq_length_filter, ← map_fst_liveSites, List.length_map]

/-! ### Sites that are loaded -/

theorem leastTu_unique {key : SiteKey} {tu tu' : Bytes} (h : LeastTu regs key tu)
    (h' : LeastTu regs key tu') : tu = tu' := by
  rcases h with ⟨rfl, hnone⟩ | ⟨hne, hin, hle⟩
  · rcases h' with ⟨rfl, -⟩ | ⟨hne', hin', -⟩
    · rfl
    · exact absurd hin' (hnone tu' hne')
  · rcases h' with ⟨rfl, hnone'⟩ | ⟨hne', hin', hle'⟩
    · exact absurd hin (hnone' tu hne)
    · exact le_antisymm (hle tu' hne' hin') (hle' tu hne hin)

theorem leastTu_congr {key : SiteKey} {tu : Bytes} {regs' : List SiteRegistration}
    (h : LeastTu regs key tu) (hmem : ∀ t, (key, t) ∈ regs ↔ (key, t) ∈ regs') :
    LeastTu regs' key tu := by
  simpa only [LeastTu, hmem] using h

/-- The first of the sorted TUs is the least. -/
theorem leastTu_headD (key : SiteKey) {tus : List Bytes} (refs : ℕ) (htus : ∀ tu ∈ tus, tu ≠ [])
    (hsorted : tus.Pairwise (· ≤ ·)) :
    LeastTu (siteRegs key tus refs) key (tus.headD []) := by
  cases tus with
  | nil => exact .inl ⟨rfl, fun t ht hmem => List.not_mem_nil ((mem_siteRegs ht).mp hmem)⟩
  | cons tu tus =>
    have hne := htus tu (.head _)
    refine .inr ⟨hne, (mem_siteRegs hne).mpr (.head _), fun t ht hmem => ?_⟩
    rcases List.mem_cons.mp ((mem_siteRegs ht).mp hmem) with rfl | hin
    · exact le_rfl
    · exact (List.pairwise_cons.mp hsorted).1 t hin

theorem loadSite_eq {r : ChannelRecord} (hnew : ch.index r.site.key = none) :
    ch.loadSite r = ch.insertSite r.site r.refs.toNat r.tus := by
  rw [loadSite, insertSite, hnew]

theorem sites_foldl_loadSite (records : List ChannelRecord) (ch : ChannelIndex) :
    (records.foldl loadSite ch).sites =
      ch.sites ++ records.map fun r => ⟨r.site, r.refs.toNat, true⟩ := by
  induction records generalizing ch with
  | nil => simp
  | cons r records ih =>
    rw [List.foldl_cons, ih, List.map_cons, List.append_cons]
    rfl

/-- Records of distinct sites are stored one after the other. -/
theorem Inv.foldl_loadSite (h : ch.Inv regs) {records : List ChannelRecord}
    (hnodup : (records.map (·.site.key)).Nodup)
    (hnew : ∀ r ∈ records, ch.index r.site.key = none)
    (hrecord : ∀ r ∈ records, (∀ tu ∈ r.tus, tu ≠ []) ∧ r.sound = true ∧
      LeastTu (siteRegs r.site.key r.tus r.refs.toNat) r.site.key r.site.tuPath) :
    (records.foldl ChannelIndex.loadSite ch).Inv
      (regs ++ records.flatMap fun r => siteRegs r.site.key r.tus r.refs.toNat) := by
  induction records generalizing ch regs with
  | nil => simpa using h
  | cons r records ih =>
    rw [List.map_cons, List.nodup_cons] at hnodup
    obtain ⟨htus, hsound, hleast⟩ := hrecord r (.head _)
    simp only [ChannelRecord.sound, Bool.and_eq_true, decide_eq_true_eq] at hsound
    have hpos : 0 < r.refs.toNat := Nat.pos_of_ne_zero fun hzero =>
      hsound.1 (UInt32.toNat_inj.mp hzero)
    have hstep := h.insertSite r.site r.refs.toNat r.tus (hnew r (.head _)) htus hsound.2 hpos hleast
    rw [← loadSite_eq (hnew r (.head _))] at hstep
    have hrest := ih hstep hnodup.2 (fun r' hr' => ?_) fun r' hr' => hrecord r' (.tail _ hr')
    · rwa [List.append_assoc] at hrest
    · have hne : r'.site.key ≠ r.site.key := fun heq =>
        hnodup.1 (heq ▸ List.mem_map_of_mem (f := fun r : ChannelRecord => r.site.key) hr')
      rw [loadSite_eq (hnew r (.head _))]
      exact (Function.update_of_ne hne _ _).trans (hnew r' (.tail _ hr'))

/-! ### Round trip -/

/-- The record of a live site is stored as the site was. -/
theorem Inv.channelRecord_eq (h : ch.Inv regs) (horder : ch.ListsTus tuOrder) {i : ℕ}
    {s : StoredSite} (hs : ch.LiveAt i s) (hrefs : s.refs < 2 ^ 32) :
    (channelRecord s (ch.siteTus tuOrder i)).site = s.site ∧
      (channelRecord s (ch.siteTus tuOrder i)).refs.toNat = s.refs ∧
      (∀ tu ∈ ch.siteTus tuOrder i, tu ≠ []) ∧
      LeastTu (siteRegs s.site.key (ch.siteTus tuOrder i) s.refs) s.site.key s.site.tuPath := by
  have htus : ∀ tu ∈ ch.siteTus tuOrder i, tu ≠ [] := fun tu htu => by
    rw [← List.count_pos_iff, count_siteTus horder, List.count_pos_iff] at htu
    exact (h.byTu_live tu i htu).1
  have hhead := leastTu_headD s.site.key s.refs htus
    (List.pairwise_insertionSort _ _)
  have hmem (t : Bytes) : (s.site.key, t) ∈ regs ↔
      (s.site.key, t) ∈ siteRegs s.site.key (ch.siteTus tuOrder i) s.refs := by
    rw [← (h.siteRegs_of_live horder hs).2.mem_iff, List.mem_filter]
    simp
  have hleast := leastTu_congr (h.least i s hs) hmem
  refine ⟨?_, UInt32.toNat_ofNat_of_lt' hrefs, htus, hleast⟩
  rw [channelRecord, leastTu_unique hhead hleast]

/-- **What is loaded is what was saved**, without the tombstones. -/
theorem Inv.loadChannels (h : ch.Inv regs) (hll : ll.AcceptsUtf8) (htext : ch.IsText regs)
    (horder : ch.ListsTus tuOrder) (hfits : ch.SectionFits tuOrder) :
    ∃ ch', loadChannels ll (ch.saveChannels tuOrder) = some ch' ∧ ch'.Inv regs ∧
      ch'.sites = ch.compact.sites := by
  set record := fun p : StoredSite × ℕ => channelRecord p.1 (ch.siteTus tuOrder p.2) with hrecord
  have hfaithful {p : StoredSite × ℕ} (hp : p ∈ ch.liveSites) :=
    h.channelRecord_eq horder (mem_liveSites.mp hp) (hfits.site _ _ (mem_liveSites.mp hp)).2.1
  have hstored {p : StoredSite × ℕ} (hp : p ∈ ch.liveSites) :
      (⟨(record p).site, (record p).refs.toNat, true⟩ : StoredSite) = p.1 := by
    obtain ⟨hsite, hrefs, -, -⟩ := hfaithful hp
    rw [hrecord, hsite, hrefs, ← (mem_liveSites.mp hp).2]
  have hsound {p : StoredSite × ℕ} (hp : p ∈ ch.liveSites) : (record p).sound = true := by
    have hlive := mem_liveSites.mp hp
    have hpos := h.positive p.2 p.1 hlive
    have hfew := (h.siteRegs_of_live horder hlive).1
    have hrefs : (record p).refs.toNat = p.1.refs := (hfaithful hp).2.1
    have hne : (record p).refs ≠ 0 := fun hzero => by
      rw [hzero] at hrefs
      exact hpos.ne hrefs
    simp only [ChannelRecord.sound, Bool.and_eq_true, decide_eq_true_eq]
    exact ⟨hne, hrefs ▸ hfew⟩
  have hput : ch.saveChannels tuOrder = putCounted
      (fun r : ChannelRecord => putChannelSite ⟨r.site, r.refs.toNat, true⟩ r.tus)
      (ch.liveSites.map record) := by
    rw [saveChannels, putCounted, List.length_map, h.length_liveSites, List.flatMap_map]
    congr 1
    refine List.flatMap_congr fun p hp => ?_
    rw [if_pos (h.positive p.2 p.1 (mem_liveSites.mp hp)).ne', hstored hp]
    rfl
  have hrecord : ∀ r ∈ ch.liveSites.map record,
      Codes (r.site.Fits ∧ r.tus.length < 2 ^ 32 ∧ ∀ tu ∈ r.tus, tu.length < 2 ^ 32)
        (checked (readChannelRecord ll) ChannelRecord.sound)
        (putChannelSite ⟨r.site, r.refs.toNat, true⟩ r.tus) r := by
    intro r hr
    obtain ⟨p, hp, rfl⟩ := List.mem_map.mp hr
    have hlive := mem_liveSites.mp hp
    obtain ⟨hsite, hrefs, htus, -⟩ := hfaithful hp
    have htexts : ∀ tu ∈ ch.siteTus tuOrder p.2, Utf8Text tu := fun tu htu => by
      rw [← List.count_pos_iff, count_siteTus horder, List.count_pos_iff] at htu
      exact htext.tu _ ((h.mem_byTu hlive (h.byTu_live tu _ htu).1).mp htu)
    rw [hstored hp]
    refine Codes.checked ((codes_channelRecord hll (htext.site _ _ hlive) htexts).congr ?_)
      (hsound hp)
    rw [hsite]
    rfl
  have hcodes := Codes.countedIn hrecord fun r => flatten_str_ne_nil _ _
  have hdecoded := hcodes.decodeSection ⟨by
    rw [List.length_map, h.length_liveSites]
    exact hfits.sites, fun r hr => ?_⟩
  · refine ⟨(ch.liveSites.map record).foldl loadSite {}, ?_, ?_, ?_⟩
    · rw [ChannelIndex.loadChannels, hput, hdecoded]
      rfl
    · have hkeys : (ch.liveSites.map record).map (·.site.key) =
          ch.liveSites.map fun p => p.1.site.key := by
        rw [List.map_map]
        exact List.map_congr_left fun p hp => by rw [← (hfaithful hp).1]; rfl
      have hinv := Inv.empty.foldl_loadSite (hkeys ▸ h.nodup_keys) (fun r _ => rfl)
        fun r hr => by
          obtain ⟨p, hp, rfl⟩ := List.mem_map.mp hr
          obtain ⟨hsite, hrefs, htus, hleast⟩ := hfaithful hp
          exact ⟨htus, hsound hp, by rw [hsite, hrefs]; exact hleast⟩
      refine hinv.perm ?_
      rw [List.nil_append, List.flatMap_map]
      refine List.Perm.trans (List.Perm.of_eq ?_) (h.perm_liveSites horder).symm
      refine List.flatMap_congr fun p hp => ?_
      obtain ⟨hsite, hrefs, -, -⟩ := hfaithful hp
      rw [hsite, hrefs]
      rfl
    · rw [sites_foldl_loadSite, List.map_map]
      refine Eq.trans ?_ map_fst_liveSites
      exact List.map_congr_left fun p hp => hstored hp
  · obtain ⟨p, hp, rfl⟩ := List.mem_map.mp hr
    obtain ⟨hsite, hrefs, htus⟩ := hfits.site _ _ (mem_liveSites.mp hp)
    have hfew := (h.siteRegs_of_live horder (mem_liveSites.mp hp)).1
    exact ⟨(hfaithful hp).1.symm ▸ hsite, lt_of_le_of_lt hfew hrefs, htus⟩

end ChannelIndex

end Vycor
