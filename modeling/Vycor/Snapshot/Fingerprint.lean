import Vycor.Lib.PrefixCode
import Vycor.Lib.Reader
import Vycor.Text.Utf8

/-!
# Input fingerprints

What decides the facts of a translation unit, besides its sources, is fed to SHA-1: the
environment of the bake once, and for every unit the fingerprint of the environment with the
compile commands. Each string stands behind its length and each list behind its number of
items, both in 64 bits, so every boundary can be told from the bytes
(`delimited_str`, `delimited_list`), and the fed bytes determine the inputs.

SHA-1 is a parameter of which the length of the digest is known. That equal fingerprints
come from equal inputs holds as far as no two of the fed streams collide.
-/

namespace Vycor

/-! ### The hasher -/

/-- `llvm::SHA1`: a digest of 20 bytes. -/
structure Sha1 where
  digest : Bytes → Bytes
  length_digest : ∀ s, (digest s).length = 20

/-- `hexdigit` in lower case. -/
def hexdigit (n : ℕ) : UInt8 := if n < 10 then 48 + UInt8.ofNat n else 87 + UInt8.ofNat n

/-- `llvm::toHex` in lower case. -/
def toHex (bs : Bytes) : Bytes :=
  bs.flatMap fun b => [hexdigit (b.toNat / 16), hexdigit (b.toNat % 16)]

/-- `Hasher`: what was fed to SHA-1 so far. -/
structure Hasher where
  fed : Bytes := []

namespace Hasher

/-- `Hasher::u64`. -/
def u64 (h : Hasher) (v : UInt64) : Hasher := ⟨h.fed ++ putU64 v⟩

/-- `Hasher::str`. -/
def str (h : Hasher) (s : Bytes) : Hasher := ⟨(h.u64 (UInt64.ofNat s.length)).fed ++ s⟩

/-- `Hasher::list`. -/
def list (h : Hasher) (items : List Bytes) : Hasher :=
  items.foldl str (h.u64 (UInt64.ofNat items.length))

/-- `Hasher::hex`. -/
def hex (h : Hasher) (sha : Sha1) : Bytes := toHex (sha.digest h.fed)

end Hasher

/-! ### The fingerprints -/

/-- `kFingerprintSchema`. -/
def kFingerprintSchema : UInt64 := 1

/-- What is compiled into the tool: the two versions, and the directories where they are
defined. -/
structure ToolBuild where
  versionString : Bytes
  llvmVersionString : Bytes
  clangResourceDir : Option Bytes := none
  defaultSysroot : Option Bytes := none

/-- `BakeEnvironment`. -/
structure BakeEnvironment where
  sysroot : Bytes
  extraArgs : List Bytes
  pchDir : Bytes
  deriving DecidableEq, Repr

/-- `clang::tooling::CompileCommand`. -/
structure CompileCommand where
  directory : Bytes
  filename : Bytes
  commandLine : List Bytes
  output : Bytes
  deriving DecidableEq, Repr

/-- `SnapshotIO::kFormatVersion`. -/
def kFormatVersion : ℕ := 14

/-- `analyzerIdentity`. -/
def analyzerIdentity (build : ToolBuild) : Bytes :=
  text "vycor-cpp " ++ build.versionString ++ text ", index format " ++ decimal kFormatVersion

/-- `toolchainIdentity`. -/
def toolchainIdentity (build : ToolBuild) : Bytes := text "LLVM " ++ build.llvmVersionString

/-- What `environmentFingerprint` feeds to the hasher, with the answer of
`detectUsableGccInstallDir`. -/
def feedEnvironment (build : ToolBuild) (gccInstallDir : Bytes) (env : BakeEnvironment) : Hasher :=
  let h : Hasher := {}
  let h := h.u64 kFingerprintSchema
  let h := h.str (analyzerIdentity build)
  let h := h.str (toolchainIdentity build)
  let h := h.str (build.clangResourceDir.getD [])
  let h := h.str (build.defaultSysroot.getD [])
  let h := h.str gccInstallDir
  let h := h.str env.sysroot
  let h := h.list env.extraArgs
  h.str env.pchDir

/-- `environmentFingerprint`. -/
def environmentFingerprint (sha : Sha1) (build : ToolBuild) (gccInstallDir : Bytes)
    (env : BakeEnvironment) : Bytes :=
  (feedEnvironment build gccInstallDir env).hex sha

/-- A compile command, fed to the hasher. -/
def feedCommand (h : Hasher) (cmd : CompileCommand) : Hasher :=
  (((h.str cmd.directory).str cmd.filename).str cmd.output).list cmd.commandLine

/-- What `fingerprintTUs` feeds to the hasher for one file. -/
def feedTU (envFingerprint : Bytes) (cmds : List CompileCommand) : Hasher :=
  let h : Hasher := {}
  let h := h.str envFingerprint
  let h := h.u64 (UInt64.ofNat cmds.length)
  cmds.foldl feedCommand h

/-- `fingerprintTUs`; the database is given by `getCompileCommands`. -/
def fingerprintTUs (sha : Sha1) (getCompileCommands : Bytes → List CompileCommand)
    (files : List Bytes) (envFingerprint : Bytes) : List Bytes :=
  files.map fun file => (feedTU envFingerprint (getCompileCommands file)).hex sha

/-! ### Sizes -/

/-- A length that fits into `uint64_t`. -/
def SizedStr : Set Bytes := {s | s.length < 2 ^ 64}

/-- A list of strings whose lengths and number fit. -/
def SizedList : Set (List Bytes) := {l | l.length < 2 ^ 64 ∧ ∀ s ∈ l, s ∈ SizedStr}

/-- The fields of an environment fit. -/
structure BakeEnvironment.Sized (env : BakeEnvironment) : Prop where
  sysroot : env.sysroot ∈ SizedStr
  extraArgs : env.extraArgs ∈ SizedList
  pchDir : env.pchDir ∈ SizedStr

/-- The fields of a compile command fit. -/
structure CompileCommand.Sized (cmd : CompileCommand) : Prop where
  directory : cmd.directory ∈ SizedStr
  filename : cmd.filename ∈ SizedStr
  output : cmd.output ∈ SizedStr
  commandLine : cmd.commandLine ∈ SizedList

/-! ### The fed bytes -/

/-- A string as it is fed. -/
def frameStr (s : Bytes) : Bytes := putU64 (UInt64.ofNat s.length) ++ s

/-- A list as it is fed. -/
def frameList (items : List Bytes) : Bytes :=
  putU64 (UInt64.ofNat items.length) ++ items.flatMap frameStr

/-- A compile command as it is fed. -/
def frameCommand (cmd : CompileCommand) : Bytes :=
  frameStr cmd.directory ++ (frameStr cmd.filename ++ (frameStr cmd.output ++
    frameList cmd.commandLine))

theorem foldl_fed {α : Type*} {feed : Hasher → α → Hasher} {frame : α → Bytes}
    (hfeed : ∀ h a, (feed h a).fed = h.fed ++ frame a) (l : List α) (h : Hasher) :
    (l.foldl feed h).fed = h.fed ++ l.flatMap frame := by
  induction l generalizing h with
  | nil => rw [List.foldl_nil, List.flatMap_nil, List.append_nil]
  | cons a l ih => rw [List.foldl_cons, ih, hfeed, List.flatMap_cons, List.append_assoc]

@[simp] theorem Hasher.fed_u64 (h : Hasher) (v : UInt64) : (h.u64 v).fed = h.fed ++ putU64 v := rfl

@[simp] theorem Hasher.fed_str (h : Hasher) (s : Bytes) : (h.str s).fed = h.fed ++ frameStr s := by
  rw [str, fed_u64, List.append_assoc, frameStr]

@[simp] theorem Hasher.fed_list (h : Hasher) (items : List Bytes) :
    (h.list items).fed = h.fed ++ frameList items := by
  rw [list, foldl_fed fed_str, fed_u64, List.append_assoc, frameList]

@[simp] theorem fed_feedCommand (h : Hasher) (cmd : CompileCommand) :
    (feedCommand h cmd).fed = h.fed ++ frameCommand cmd := by
  simp [feedCommand, frameCommand]

/-! ### Boundaries -/

theorem putU64_injective : Function.Injective putU64 := by
  intro v w h
  have hnat := congrArg ofLe h
  rw [putU64, putU64, ofLe_toLe_of_lt v.toNat_lt, ofLe_toLe_of_lt w.toNat_lt] at hnat
  exact UInt64.toNat_inj.mp hnat

theorem delimited_length :
    SelfDelimitingOn {n : ℕ | n < 2 ^ 64} fun n => putU64 (UInt64.ofNat n) := by
  refine .of_length (fun _ _ => length_toLe 8 _) fun n hn m hm h => ?_
  have hnat := congrArg UInt64.toNat (putU64_injective h)
  rwa [UInt64.toNat_ofNat_of_lt' hn, UInt64.toNat_ofNat_of_lt' hm] at hnat

theorem delimited_str : SelfDelimitingOn SizedStr frameStr := by
  intro s hs s' hs' r r' h
  rw [frameStr, frameStr, List.append_assoc, List.append_assoc] at h
  obtain ⟨hlen, hrest⟩ := delimited_length _ hs _ hs' _ _ h
  exact List.append_inj hrest hlen

theorem delimited_list : SelfDelimitingOn SizedList frameList :=
  delimited_str.counted delimited_length

theorem delimited_command : SelfDelimitingOn {cmd | cmd.Sized} frameCommand := by
  intro cmd hcmd cmd' hcmd' r r' h
  simp only [frameCommand, List.append_assoc] at h
  obtain ⟨hdirectory, h⟩ := delimited_str _ hcmd.directory _ hcmd'.directory _ _ h
  obtain ⟨hfilename, h⟩ := delimited_str _ hcmd.filename _ hcmd'.filename _ _ h
  obtain ⟨houtput, h⟩ := delimited_str _ hcmd.output _ hcmd'.output _ _ h
  obtain ⟨hline, hr⟩ := delimited_list _ hcmd.commandLine _ hcmd'.commandLine _ _ h
  refine ⟨?_, hr⟩
  cases cmd
  cases cmd'
  exact CompileCommand.mk.injEq .. ▸ ⟨hdirectory, hfilename, hline, houtput⟩

/-- A list of compile commands that fits. -/
def SizedCommands : Set (List CompileCommand) :=
  {cmds | cmds.length < 2 ^ 64 ∧ ∀ cmd ∈ cmds, cmd ∈ {cmd : CompileCommand | cmd.Sized}}

theorem delimited_commands : SelfDelimitingOn SizedCommands fun cmds =>
    putU64 (UInt64.ofNat cmds.length) ++ cmds.flatMap frameCommand :=
  delimited_command.counted delimited_length

/-- **The environment can be told from what is fed of it.** -/
theorem feedEnvironment_injective (build : ToolBuild) {gcc gcc' : Bytes}
    {env env' : BakeEnvironment} (hgcc : gcc ∈ SizedStr) (hgcc' : gcc' ∈ SizedStr)
    (henv : env.Sized) (henv' : env'.Sized)
    (h : (feedEnvironment build gcc env).fed = (feedEnvironment build gcc' env').fed) :
    gcc = gcc' ∧ env = env' := by
  simp only [feedEnvironment, Hasher.fed_str, Hasher.fed_list, List.append_assoc,
    List.append_cancel_left_eq] at h
  obtain ⟨hdir, h⟩ := delimited_str _ hgcc _ hgcc' _ _ h
  obtain ⟨hsysroot, h⟩ := delimited_str _ henv.sysroot _ henv'.sysroot _ _ h
  obtain ⟨hargs, h⟩ := delimited_list _ henv.extraArgs _ henv'.extraArgs _ _ h
  obtain ⟨hpch, -⟩ := delimited_str _ henv.pchDir _ henv'.pchDir [] [] (by simpa using h)
  refine ⟨hdir, ?_⟩
  cases env
  cases env'
  exact BakeEnvironment.mk.injEq .. ▸ ⟨hsysroot, hargs, hpch⟩

/-- **A unit's inputs can be told from what is fed of them.** -/
theorem feedTU_injective {fp fp' : Bytes} {cmds cmds' : List CompileCommand}
    (hfp : fp ∈ SizedStr) (hfp' : fp' ∈ SizedStr) (hcmds : cmds ∈ SizedCommands)
    (hcmds' : cmds' ∈ SizedCommands) (h : (feedTU fp cmds).fed = (feedTU fp' cmds').fed) :
    fp = fp' ∧ cmds = cmds' := by
  simp only [feedTU, foldl_fed fed_feedCommand, Hasher.fed_u64, Hasher.fed_str, List.nil_append,
    List.append_assoc] at h
  obtain ⟨rfl, h⟩ := delimited_str _ hfp _ hfp' _ _ h
  obtain ⟨rfl, -⟩ := delimited_commands _ hcmds _ hcmds' [] [] (by simpa using h)
  exact ⟨rfl, rfl⟩

/-! ### Hexadecimal digests -/

theorem hexdigit_inj : ∀ n < 16, ∀ m < 16, hexdigit n = hexdigit m → n = m := by decide

theorem toHex_injective : Function.Injective toHex := by
  have hbyte : SelfDelimiting fun b : UInt8 => [hexdigit (b.toNat / 16), hexdigit (b.toNat % 16)] := by
    intro b b' r r' h
    have hb := b.toNat_lt
    have hb' := b'.toNat_lt
    simp only [List.cons_append, List.nil_append, List.cons.injEq] at h
    have hhigh := hexdigit_inj _ (by omega) _ (by omega) h.1
    have hlow := hexdigit_inj _ (by omega) _ (by omega) h.2.1
    exact ⟨UInt8.toNat_inj.mp (by omega), h.2.2⟩
  exact hbyte.flatMap_injective fun _ => List.cons_ne_nil _ _

theorem length_toHex (bs : Bytes) : (toHex bs).length = 2 * bs.length := by
  induction bs with
  | nil => rfl
  | cons b bs ih =>
    rw [toHex, List.flatMap_cons, List.length_append, ← toHex, ih, List.length_cons]
    simp only [List.length_cons, List.length_nil]
    omega

theorem sized_hex (h : Hasher) (sha : Sha1) : h.hex sha ∈ SizedStr := by
  have hlen : (h.hex sha).length = 40 := by rw [Hasher.hex, length_toHex, sha.length_digest]
  exact hlen.trans_lt (by norm_num)

/-- Equal digests of streams that do not collide. -/
theorem fed_eq_of_hex {sha : Sha1} {fed : Set Bytes} (hfree : Set.InjOn sha.digest fed)
    {h h' : Hasher} (hh : h.fed ∈ fed) (hh' : h'.fed ∈ fed) (heq : h.hex sha = h'.hex sha) :
    h.fed = h'.fed :=
  hfree hh hh' (toHex_injective heq)

/-! ### Fingerprints of whole bakes -/

/-- What a bake hands to the fingerprints of its units. -/
structure Bake where
  gccInstallDir : Bytes
  env : BakeEnvironment
  getCompileCommands : Bytes → List CompileCommand

namespace Bake

/-- The fingerprints of the units. -/
def fingerprints (bake : Bake) (sha : Sha1) (build : ToolBuild) (files : List Bytes) : List Bytes :=
  fingerprintTUs sha bake.getCompileCommands files
    (environmentFingerprint sha build bake.gccInstallDir bake.env)

/-- The inputs of a file's fingerprint fit. -/
structure SizedAt (bake : Bake) (file : Bytes) : Prop where
  gccInstallDir : bake.gccInstallDir ∈ SizedStr
  env : bake.env.Sized
  commands : bake.getCompileCommands file ∈ SizedCommands

/-- The two streams that are fed to SHA-1 for a file. -/
def streams (bake : Bake) (sha : Sha1) (build : ToolBuild) (file : Bytes) : Set Bytes :=
  {(feedEnvironment build bake.gccInstallDir bake.env).fed,
    (feedTU (environmentFingerprint sha build bake.gccInstallDir bake.env)
      (bake.getCompileCommands file)).fed}

end Bake

/-- Units with equal fingerprints have equal inputs, as far as no fed streams collide. -/
theorem Bake.inputs_of_fingerprint {sha : Sha1} {build : ToolBuild} {fed : Set Bytes}
    (hfree : Set.InjOn sha.digest fed) {bake bake' : Bake} {file file' : Bytes}
    (hsized : bake.SizedAt file) (hsized' : bake'.SizedAt file')
    (hfed : bake.streams sha build file ⊆ fed) (hfed' : bake'.streams sha build file' ⊆ fed)
    {files files' : List Bytes} {i i' : ℕ} (hi : files[i]? = some file)
    (hi' : files'[i']? = some file')
    (heq : (bake.fingerprints sha build files)[i]? = (bake'.fingerprints sha build files')[i']?) :
    bake.gccInstallDir = bake'.gccInstallDir ∧ bake.env = bake'.env ∧
      bake.getCompileCommands file = bake'.getCompileCommands file' := by
  rw [fingerprints, fingerprints, fingerprintTUs, fingerprintTUs, List.getElem?_map,
    List.getElem?_map, hi, hi', Option.map_some, Option.map_some, Option.some_inj] at heq
  have hunit := fed_eq_of_hex hfree (hfed (.inr rfl)) (hfed' (.inr rfl)) heq
  obtain ⟨henv, hcommands⟩ := feedTU_injective (sized_hex _ sha) (sized_hex _ sha)
    hsized.commands hsized'.commands hunit
  have hbake := fed_eq_of_hex hfree (hfed (.inl rfl)) (hfed' (.inl rfl)) henv
  obtain ⟨hgcc, henv⟩ := feedEnvironment_injective build hsized.gccInstallDir
    hsized'.gccInstallDir hsized.env hsized'.env hbake
  exact ⟨hgcc, henv, hcommands⟩

/-- **The framing is injective**: the bytes fed for an environment determine it, those fed for
a unit determine the fingerprint of the environment and the compile commands, and so equal
fingerprints come from equal inputs where SHA-1 has no collision. -/
theorem fingerprint_framing (sha : Sha1) (build : ToolBuild) :
    (∀ (gcc gcc' : Bytes) (env env' : BakeEnvironment), gcc ∈ SizedStr → gcc' ∈ SizedStr →
      env.Sized → env'.Sized →
      (feedEnvironment build gcc env).fed = (feedEnvironment build gcc' env').fed →
      gcc = gcc' ∧ env = env') ∧
    (∀ (fp fp' : Bytes) (cmds cmds' : List CompileCommand), fp ∈ SizedStr → fp' ∈ SizedStr →
      cmds ∈ SizedCommands → cmds' ∈ SizedCommands →
      (feedTU fp cmds).fed = (feedTU fp' cmds').fed → fp = fp' ∧ cmds = cmds') ∧
    ∀ (fed : Set Bytes), Set.InjOn sha.digest fed → ∀ (bake bake' : Bake) (file file' : Bytes),
      bake.SizedAt file → bake'.SizedAt file' → bake.streams sha build file ⊆ fed →
      bake'.streams sha build file' ⊆ fed → ∀ (files files' : List Bytes) (i i' : ℕ),
      files[i]? = some file → files'[i']? = some file' →
      (bake.fingerprints sha build files)[i]? = (bake'.fingerprints sha build files')[i']? →
      bake.gccInstallDir = bake'.gccInstallDir ∧ bake.env = bake'.env ∧
        bake.getCompileCommands file = bake'.getCompileCommands file' :=
  ⟨fun _ _ _ _ hgcc hgcc' henv henv' h => feedEnvironment_injective build hgcc hgcc' henv henv' h,
    fun _ _ _ _ hfp hfp' hcmds hcmds' h => feedTU_injective hfp hfp' hcmds hcmds' h,
    fun _ hfree _ _ _ _ hsized hsized' hfed hfed' _ _ _ _ hi hi' heq =>
      Bake.inputs_of_fingerprint hfree hsized hsized' hfed hfed' hi hi' heq⟩

/-- A build of the tool. -/
def smallBuild : ToolBuild := { versionString := text "0.2.0", llvmVersionString := text "20.1.2" }

/-- A bake of one file with one compile command. -/
def smallBake : Bake where
  gccInstallDir := []
  env := { sysroot := text "/sdk", extraArgs := [text "-DX"], pchDir := [] }
  getCompileCommands _ := [⟨text "/p", text "a.cpp", [text "cc", text "a.cpp"], text "a.o"⟩]

/-- The digest of the environment's stream. -/
def smallEnvDigest : Bytes :=
  [19, 58, 133, 236, 199, 110, 152, 197, 217, 227, 90, 97, 253, 84, 202, 239, 114, 74, 62, 42]

/-- The digest of the unit's stream. -/
def smallUnitDigest : Bytes :=
  [201, 142, 67, 149, 38, 157, 59, 249, 60, 0, 15, 124, 70, 120, 98, 117, 165, 239, 22, 132]

/-- SHA-1 on the two streams of the bake. -/
def smallSha1 : Sha1 where
  digest s :=
    if s = (feedEnvironment smallBuild smallBake.gccInstallDir smallBake.env).fed then smallEnvDigest
    else if s = (feedTU (toHex smallEnvDigest) (smallBake.getCompileCommands (text "a.cpp"))).fed then
      smallUnitDigest
    else List.replicate 20 0
  length_digest s := by
    split_ifs
    · rfl
    · rfl
    · exact List.length_replicate

theorem smallSha1_env :
    smallSha1.digest (feedEnvironment smallBuild smallBake.gccInstallDir smallBake.env).fed =
      smallEnvDigest := by
  simp [smallSha1]

theorem environmentFingerprint_small :
    environmentFingerprint smallSha1 smallBuild smallBake.gccInstallDir smallBake.env =
      toHex smallEnvDigest := by
  rw [environmentFingerprint, Hasher.hex, smallSha1_env]

theorem smallSha1_unit :
    smallSha1.digest (feedTU (toHex smallEnvDigest) (smallBake.getCompileCommands (text "a.cpp"))).fed =
      smallUnitDigest := by
  have hne : (feedTU (toHex smallEnvDigest) (smallBake.getCompileCommands (text "a.cpp"))).fed ≠
      (feedEnvironment smallBuild smallBake.gccInstallDir smallBake.env).fed := by
    decide +kernel
  simp [smallSha1, hne]

/-- The bake of one file has the fingerprint `c98e4395…`. -/
theorem fingerprint_framing_small :
    smallBake.fingerprints smallSha1 smallBuild [text "a.cpp"] = [toHex smallUnitDigest] ∧
      smallBake.gccInstallDir = smallBake.gccInstallDir ∧ smallBake.env = smallBake.env ∧
      smallBake.getCompileCommands (text "a.cpp") = smallBake.getCompileCommands (text "a.cpp") := by
  have hsized : smallBake.SizedAt (text "a.cpp") := by
    refine ⟨?_, ⟨?_, ⟨?_, fun s hs => ?_⟩, ?_⟩, ?_, fun cmd hcmd => ?_⟩
    · exact (by decide : ([] : Bytes).length < 2 ^ 64)
    · exact (by decide +kernel : (text "/sdk").length < 2 ^ 64)
    · exact (by decide : [text "-DX"].length < 2 ^ 64)
    · obtain rfl := List.mem_singleton.mp hs
      exact (by decide +kernel : (text "-DX").length < 2 ^ 64)
    · exact (by decide : ([] : Bytes).length < 2 ^ 64)
    · exact (by decide : (1 : ℕ) < 2 ^ 64)
    · obtain rfl := List.mem_singleton.mp hcmd
      refine ⟨?_, ?_, ?_, ?_, fun s hs => ?_⟩
      · exact (by decide +kernel : (text "/p").length < 2 ^ 64)
      · exact (by decide +kernel : (text "a.cpp").length < 2 ^ 64)
      · exact (by decide +kernel : (text "a.o").length < 2 ^ 64)
      · exact (by decide : (2 : ℕ) < 2 ^ 64)
      · have hlen : ∀ s ∈ [text "cc", text "a.cpp"], s.length < 2 ^ 64 := by decide +kernel
        exact hlen s hs
  have hstreams : smallBake.streams smallSha1 smallBuild (text "a.cpp") =
      {(feedEnvironment smallBuild smallBake.gccInstallDir smallBake.env).fed,
        (feedTU (toHex smallEnvDigest) (smallBake.getCompileCommands (text "a.cpp"))).fed} := by
    rw [Bake.streams, environmentFingerprint_small]
  have hfree : Set.InjOn smallSha1.digest
      (smallBake.streams smallSha1 smallBuild (text "a.cpp")) := by
    rw [hstreams, Set.injOn_pair, smallSha1_env, smallSha1_unit]
    exact fun h => absurd h (by decide)
  refine ⟨?_, ( fingerprint_framing smallSha1 smallBuild).2.2 _ hfree smallBake smallBake _ _ hsized
    hsized le_rfl le_rfl [text "a.cpp"] [text "a.cpp"] 0 0 rfl rfl rfl⟩
  rw [Bake.fingerprints, environmentFingerprint_small, fingerprintTUs, List.map_singleton, Hasher.hex,
    smallSha1_unit]

end Vycor
