import Metalogos.Lib.Dict
import Metalogos.Lib.Text
import Metalogos.Lang.Value
import Metalogos.Duplex.Channel

/-!
# The embodied registry

`src/embodied.rs`: devices with their bounds formula, snapshots of the world, action chunks, and the signed
proofs that join a snapshot and a chunk. All are records of one registry under identifiers drawn afresh; a
chunk and a proof name the formula they were made under by its identifier, and the formula itself is only on
its device.

Poses and the points of a trajectory are not kept, since nothing here reads them; the ledger records that the
operations leave behind are left out.
-/
namespace Metalogos.Embodied

open Metalogos.Lib
open Metalogos.Lang (codedError)
open Metalogos.Duplex (Mint)

/-! ## Backends -/

/-- mirrors src/backends.rs:43-79 -/
inductive BackendClass where
  | stt
  | tts
  | omni
  | visionUnderstanding
  | llm
  | ocr
  | videoUnderstanding
  | embodiedSim
  | timeseries
  deriving DecidableEq, Repr

/-- mirrors src/backends.rs:82-94 -/
def BackendClass.asStr : BackendClass → String
  | .stt => "stt"
  | .tts => "tts"
  | .omni => "omni"
  | .visionUnderstanding => "vision-understanding"
  | .llm => "llm"
  | .ocr => "ocr"
  | .videoUnderstanding => "video-understanding"
  | .embodiedSim => "embodied-sim"
  | .timeseries => "timeseries"

structure BackendEntry where
  name : String
  cls : BackendClass
  deriving DecidableEq, Repr

/-- Names and classes.
mirrors src/backends.rs:190-375 -/
def backendRegistry : List BackendEntry :=
  [⟨"chatterbox", .tts⟩, ⟨"kokoro", .tts⟩, ⟨"z-image-turbo", .visionUnderstanding⟩,
    ⟨"molmoact2", .visionUnderstanding⟩, ⟨"wall-oss", .omni⟩, ⟨"nemotron-omni", .omni⟩,
    ⟨"whisper-turbo", .stt⟩, ⟨"trocr-printed", .ocr⟩, ⟨"qwen25-vl-7b", .videoUnderstanding⟩,
    ⟨"llava-video-7b", .videoUnderstanding⟩, ⟨"internvl3-8b", .videoUnderstanding⟩,
    ⟨"embodied-sim-kinematic", .embodiedSim⟩, ⟨"embodied-mock-device", .embodiedSim⟩,
    ⟨"timesfm-2.5", .timeseries⟩, ⟨"statsforecast", .timeseries⟩, ⟨"seasonal_naive", .timeseries⟩]

/-- mirrors src/backends.rs:392-394 -/
def findByName (name : String) : Option BackendEntry := backendRegistry.find? (·.name = name)

/-- mirrors src/embodied.rs:440-446 -/
def embodiedBackendNames : List String := (backendRegistry.filter (·.cls = .embodiedSim)).map (·.name)

/-! ## Records -/

/-- mirrors src/embodied.rs:56-104 -/
inductive Verdict where
  | satisfied
  | violated (signal observed bound : String)
  | pending
  deriving DecidableEq, Repr

def Verdict.asStr : Verdict → String
  | .satisfied => "satisfied"
  | .violated .. => "violated"
  | .pending => "pending"

def Verdict.parse (word : String) : Option Verdict :=
  if word = "satisfied" then some .satisfied
  else if word = "violated" then some (.violated "" "" "")
  else if word = "pending" then some .pending
  else none

/-- mirrors src/embodied.rs:109-120 -/
structure BoundsFormula where
  id : String
  text : String
  deriving DecidableEq, Repr

/-- mirrors src/embodied.rs:123-130 -/
structure DeviceProfile where
  id : String
  backend : String
  bounds : Option BoundsFormula
  deriving DecidableEq, Repr

/-- mirrors src/embodied.rs:136-143 -/
structure WorldSnapshot where
  id : String
  device : String
  step : Nat
  digest : String
  deriving DecidableEq, Repr

/-- mirrors src/embodied.rs:166-174 -/
structure ChunkData where
  id : String
  device : String
  trajectory : String
  goal : Option String
  bounds : String
  deriving DecidableEq, Repr

/-- mirrors src/embodied.rs:179-192 -/
structure ProofRecord where
  id : String
  worldHash : String
  chunkId : String
  boundsId : String
  telemetryDigest : String
  verdict : Verdict
  simHash : String
  signature : String
  deriving DecidableEq, Repr

/-- `formulas` are all that were ever attached and `minted` the identifiers drawn; the code keeps neither.
mirrors src/embodied.rs:233-241 -/
structure EmbodiedState where
  devices : Dict String DeviceProfile
  worlds : Dict String WorldSnapshot
  trajectories : List String
  goals : Dict String String
  chunks : Dict String ChunkData
  proofs : Dict String ProofRecord
  seq : Nat
  formulas : List BoundsFormula
  minted : List String
  deriving DecidableEq

def EmbodiedState.start : EmbodiedState := ⟨.empty, .empty, [], .empty, .empty, .empty, 1, [], []⟩

/-- A value that names a record: its identifier and the printable rest. -/
structure Handle where
  id : String
  fields : List (String × String)
  deriving DecidableEq, Repr

/-- `str::trim` -/
def trimmed (s : String) : String := String.ofList (trim s.toList)

def unknownHandle (fnName kind id : String) : String :=
  codedError "EMBODIED_HANDLE_UNKNOWN" (fnName ++ ": unknown " ++ kind ++ " handle '" ++ id ++
    "' — open one with the embodied constructors first")

variable (sha256Hex : String → String)

/-- The only form in which a formula leaves the registry. -/
def BoundsFormula.digest (f : BoundsFormula) : String := sha256Hex f.text

/-- mirrors src/embodied.rs:196-220 -/
def ProofRecord.canonical (p : ProofRecord) : String :=
  let violation := match p.verdict with
    | .violated signal observed bound => "violated|" ++ signal ++ "|" ++ observed ++ "|" ++ bound
    | v => v.asStr
  "metalogos-embodied-proof-v1 (naryad 355 / 343; stage-A mock contour)|" ++ p.worldHash ++ "|" ++ p.chunkId ++
    "|" ++ p.boundsId ++ "|" ++ p.telemetryDigest ++ "|" ++ p.verdict.asStr ++ "|" ++ p.simHash ++ "|" ++ violation

def ProofRecord.sign (p : ProofRecord) : ProofRecord := { p with signature := sha256Hex p.canonical }

def ProofRecord.signatureValid (p : ProofRecord) : Bool := p.signature == sha256Hex p.canonical

/-- mirrors src/embodied.rs:250-262 -/
def EmbodiedState.freshId (s : EmbodiedState) (kind seed : String) (millis : Nat) : String × EmbodiedState :=
  let id := Mint.id sha256Hex ⟨kind, seed, millis, s.seq⟩
  (id, { s with seq := s.seq + 1, minted := s.minted ++ [id] })

/-! ## Devices -/

def deviceValue (d : DeviceProfile) : Handle := ⟨d.id, [("backend", d.backend)]⟩

/-- The profile with its new identifier enters the registry. -/
def EmbodiedState.addDevice (s : EmbodiedState) (backend : String) (bounds : Option BoundsFormula)
    (millis : Nat) : Except String Handle × EmbodiedState :=
  let (id, s) := s.freshId sha256Hex "dev" backend millis
  let device : DeviceProfile := ⟨id, backend, bounds⟩
  (.ok (deviceValue device),
    { s with devices := s.devices.set id device, formulas := s.formulas ++ bounds.toList })

/-- `millis` and `millis'` are the readings at the two identifiers.
mirrors src/embodied.rs:290-352 -/
def EmbodiedState.deviceOpen (s : EmbodiedState) (fnName backend : String) (boundsText : Option String)
    (millis millis' : Nat) : Except String Handle × EmbodiedState :=
  match findByName backend with
  | none => (.error (codedError "EMBODIED_BACKEND_UNKNOWN" (fnName ++ ": unknown backend '" ++ backend ++
      "' — the embodied contour runs on the registry's embodied-sim records (" ++
      "/".intercalate embodiedBackendNames ++ ")")), s)
  | some entry =>
    if entry.cls ≠ .embodiedSim then
      (.error (codedError "EMBODIED_CLASS_MISMATCH" (fnName ++ ": backend '" ++ backend ++ "' is class '" ++
        entry.cls.asStr ++
        "', not 'embodied-sim' — devices open on sim records only (the contour is sim-only, ADR-0159)")), s)
    else
      match boundsText with
      | none => s.addDevice sha256Hex backend none millis'
      | some text =>
        if trimmed text = "" then
          (.error (fnName ++ ": the bounds formula must be a non-empty declaration (the verbatim STL-style " ++
            "text; the monitor parses it in №356)"), s)
        else
          let (id, s) := s.freshId sha256Hex "bnd" backend millis
          s.addDevice sha256Hex backend (some ⟨id, trimmed text⟩) millis'

/-- mirrors src/embodied.rs:357-384 -/
def EmbodiedState.boundsAttach (s : EmbodiedState) (fnName device text : String) (millis : Nat) :
    Except String Handle × EmbodiedState :=
  if trimmed text = "" then
    (.error (fnName ++ ": the bounds formula must be a non-empty declaration"), s)
  else
    match s.devices.get device with
    | none => (.error (unknownHandle fnName "device" device), s)
    | some d =>
      let (id, s) := s.freshId sha256Hex "bnd" d.backend millis
      let formula : BoundsFormula := ⟨id, trimmed text⟩
      let d := { d with bounds := some formula }
      (.ok (deviceValue d), { s with devices := s.devices.set device d, formulas := s.formulas ++ [formula] })

/-! ## Worlds -/

/-- What a snapshot of a device on step 0 records of its profile. -/
def worldDigest (backend : String) (bounds : Option BoundsFormula) : String :=
  sha256Hex ("world|" ++ backend ++ "|" ++ (bounds.map (·.digest sha256Hex)).getD "unbounded" ++ "|0")

def worldValue (w : WorldSnapshot) : Handle :=
  ⟨w.id, [("device", w.device), ("label", "private"), ("step", toString w.step)]⟩

/-- mirrors src/embodied.rs:454-487 -/
def EmbodiedState.worldState (s : EmbodiedState) (fnName device : String) (millis : Nat) :
    Except String Handle × EmbodiedState :=
  match s.devices.get device with
  | none => (.error (unknownHandle fnName "device" device), s)
  | some d =>
    let (id, s) := s.freshId sha256Hex "wld" d.id millis
    let snapshot : WorldSnapshot := ⟨id, d.id, 0, worldDigest sha256Hex d.backend d.bounds⟩
    (.ok (worldValue snapshot), { s with worlds := s.worlds.set id snapshot })

/-! ## Poses, trajectories, goals, chunks -/

/-- A pose whose coordinates are finite; `coordinates` are the four of them as they are shown, with bars between.
Only the points of a trajectory are read back, so the registry keeps the identifier alone.
mirrors src/embodied.rs:571-579 -/
def EmbodiedState.poseMake (s : EmbodiedState) (coordinates : String) (millis : Nat) :
    Except String Handle × EmbodiedState :=
  let (id, s) := s.freshId sha256Hex "pos" coordinates millis
  (.ok ⟨id, [("frame", "world")]⟩, s)

/-- A trajectory whose points were accepted.
mirrors src/embodied.rs:620-631 -/
def EmbodiedState.trajectoryMake (s : EmbodiedState) (points millis : Nat) :
    Except String Handle × EmbodiedState :=
  let (id, s) := s.freshId sha256Hex "trj" ("points=" ++ toString points) millis
  (.ok ⟨id, [("points", toString points)]⟩, { s with trajectories := s.trajectories ++ [id] })

/-- mirrors src/embodied.rs:659-680 -/
def EmbodiedState.goalMake (s : EmbodiedState) (fnName text : String) (millis : Nat) :
    Except String Handle × EmbodiedState :=
  if trimmed text = "" then
    (.error (fnName ++ ": the goal predicate must be a non-empty declaration"), s)
  else
    let (id, s) := s.freshId sha256Hex "gol" (trimmed text) millis
    (.ok ⟨id, []⟩, { s with goals := s.goals.set id (trimmed text) })

def chunkValue (c : ChunkData) : Handle :=
  ⟨c.id, [("device", c.device), ("trajectory", c.trajectory), ("goal", c.goal.getD "")]⟩

/-- mirrors src/embodied.rs:711-770 -/
def EmbodiedState.chunkMake (s : EmbodiedState) (fnName device trajectory : String) (goal : Option String)
    (millis : Nat) : Except String Handle × EmbodiedState :=
  match s.devices.get device with
  | none => (.error (unknownHandle fnName "device" device), s)
  | some d =>
    match d.bounds with
    | none => (.error (codedError "EMBODIED_UNBOUNDED" (fnName ++ ": device '" ++ device ++
        "' carries no bounds formula — an ActionChunk without a bounds formula bound to its device profile " ++
        "is refused at the type level (ADR-0159 §2.4.2); attach one with bounds_attach")), s)
    | some f =>
      if trajectory ∉ s.trajectories then (.error (unknownHandle fnName "trajectory" trajectory), s)
      else if goal.any fun g => !s.goals.has g then (.error (unknownHandle fnName "goal" (goal.getD "")), s)
      else
        let (id, s) := s.freshId sha256Hex "chk" (device ++ "|" ++ trajectory) millis
        let chunk : ChunkData := ⟨id, device, trajectory, goal, f.id⟩
        (.ok (chunkValue chunk), { s with chunks := s.chunks.set id chunk })

/-! ## Proofs -/

def proofValue (p : ProofRecord) : Handle := ⟨p.id, [("verdict", p.verdict.asStr)]⟩

def telemetryDigest (telemetry : Option String) : String :=
  match telemetry with
  | some t => if trimmed t ≠ "" then sha256Hex (trimmed t) else sha256Hex "no-telemetry"
  | none => sha256Hex "no-telemetry"

/-- The record that a world and a chunk are sealed into. -/
def sealRecord (id : String) (w : WorldSnapshot) (c : ChunkData) (telemetry : Option String) : ProofRecord :=
  ProofRecord.sign sha256Hex
    { id := id
      worldHash := w.digest
      chunkId := c.id
      boundsId := c.bounds
      telemetryDigest := telemetryDigest sha256Hex telemetry
      verdict := .pending
      simHash := sha256Hex ("sim|" ++ w.digest ++ "|" ++ c.id ++ "|" ++ c.bounds ++ "|" ++ c.trajectory)
      signature := "" }

/-- mirrors src/embodied.rs:811-869 -/
def EmbodiedState.proofSeal (s : EmbodiedState) (fnName world chunk : String) (telemetry : Option String)
    (millis : Nat) : Except String Handle × EmbodiedState :=
  match s.worlds.get world with
  | none => (.error (unknownHandle fnName "world" world), s)
  | some w =>
    match s.chunks.get chunk with
    | none => (.error (unknownHandle fnName "chunk" chunk), s)
    | some c =>
      if c.device ≠ w.device then
        (.error (fnName ++ ": chunk '" ++ chunk ++ "' is bound to device '" ++ c.device ++ "', but the world '" ++
          world ++ "' belongs to device '" ++ w.device ++
          "' — a proof seals a chunk over ITS OWN world (fail-closed)"), s)
      else
        let (id, s) := s.freshId sha256Hex "prf" (world ++ "|" ++ chunk) millis
        let proof := sealRecord sha256Hex id w c telemetry
        (.ok (proofValue proof), { s with proofs := s.proofs.set id proof })

def isHexDigit (c : Char) : Bool :=
  let n := c.toNat
  (48 ≤ n && n ≤ 57) || (97 ≤ n && n ≤ 102) || (65 ≤ n && n ≤ 70)

/-- What is wrong with a record.
mirrors src/embodied.rs:903-965 -/
def validateProofRecord (record : ProofRecord) (s : EmbodiedState) : List String :=
  let detail := match record.verdict with
    | .violated signal observed bound =>
      if signal = "" ∧ observed = "" ∧ bound = "" then
        ["violated verdict carries no signal/observed/bound detail"]
      else []
    | _ => []
  let boundsKnown := s.devices.pairs.any fun d => d.2.bounds.map (·.id) == some record.boundsId
  let resolution := match s.chunks.get record.chunkId with
    | none => ["the proof's chunk does not resolve"]
    | some chunk =>
      match s.devices.get chunk.device with
      | none => ["the chunk's device no longer resolves"]
      | some device =>
        match findByName device.backend with
        | none => ["device backend '" ++ device.backend ++ "' is not in BACKEND_REGISTRY"]
        | some entry =>
          if entry.cls ≠ .embodiedSim then
            ["device backend '" ++ device.backend ++ "' is class '" ++ entry.cls.asStr ++ "', not 'embodied-sim'"]
          else []
  (if record.signatureValid sha256Hex then [] else
    ["signature does not match the canonical field serialization (tampered or foreign trace)"]) ++
  (if (Verdict.parse record.verdict.asStr).isNone then
    ["verdict '" ++ record.verdict.asStr ++ "' is outside the closed vocabulary (satisfied/violated/pending)"]
  else []) ++ detail ++
  (if record.worldHash.utf8ByteSize ≠ 64 ∨ record.worldHash.toList.all isHexDigit = false then
    ["world_hash is not a sha256 hex digest"] else []) ++
  (if boundsKnown then [] else
    ["bounds '" ++ record.boundsId ++ "' does not resolve to any device-profile formula"]) ++ resolution

/-- The fields of `EmbodiedProofReport`. -/
structure ProofReport where
  valid : Bool
  proofId : String
  verdict : String
  worldHash : String
  chunkId : String
  boundsId : String
  backend : String
  reasons : List String

/-- mirrors src/embodied.rs:969-1008 -/
def EmbodiedState.proofVerify (s : EmbodiedState) (fnName proof : String) : Except String ProofReport :=
  match s.proofs.get proof with
  | none => .error (unknownHandle fnName "proof" proof)
  | some record =>
    let reasons := validateProofRecord sha256Hex record s
    let device := (s.chunks.get record.chunkId).bind fun c => s.devices.get c.device
    .ok ⟨reasons.isEmpty, record.id, record.verdict.asStr, record.worldHash, record.chunkId, record.boundsId,
      (device.map (·.backend)).getD "", reasons⟩

/-! ## Runs -/

inductive Op where
  | deviceOpen (backend : String) (bounds : Option String) (millis millis' : Nat)
  | boundsAttach (device text : String) (millis : Nat)
  | worldState (device : String) (millis : Nat)
  | poseMake (coordinates : String) (millis : Nat)
  | trajectoryMake (points millis : Nat)
  | goalMake (text : String) (millis : Nat)
  | chunkMake (device trajectory : String) (goal : Option String) (millis : Nat)
  | proofSeal (world chunk : String) (telemetry : Option String) (millis : Nat)

def EmbodiedState.exec (s : EmbodiedState) : Op → Except String Handle × EmbodiedState
  | .deviceOpen backend bounds millis millis' => s.deviceOpen sha256Hex "device_open" backend bounds millis millis'
  | .boundsAttach device text millis => s.boundsAttach sha256Hex "bounds_attach" device text millis
  | .worldState device millis => s.worldState sha256Hex "world_state" device millis
  | .poseMake coordinates millis => s.poseMake sha256Hex coordinates millis
  | .trajectoryMake points millis => s.trajectoryMake sha256Hex points millis
  | .goalMake text millis => s.goalMake sha256Hex "goal_make" text millis
  | .chunkMake device trajectory goal millis => s.chunkMake sha256Hex "chunk_make" device trajectory goal millis
  | .proofSeal world chunk telemetry millis => s.proofSeal sha256Hex "proof_seal" world chunk telemetry millis

def EmbodiedState.step (s : EmbodiedState) (op : Op) : EmbodiedState := (s.exec sha256Hex op).2

def EmbodiedState.run (s : EmbodiedState) (ops : List Op) : EmbodiedState :=
  ops.foldl (EmbodiedState.step sha256Hex) s

end Metalogos.Embodied
