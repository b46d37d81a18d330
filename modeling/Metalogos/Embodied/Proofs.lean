import Metalogos.Embodied.Registry

/-!
# Proofs over a run

A proof names its formula by the identifier that its chunk took from the device, and `proof_verify` looks for
that identifier among the formulas the devices carry now. A formula that is replaced is found no more, so a
proof made under it fails from then on, and so does a chunk made under it that is sealed later
(`reattached_invalid`). `Careful` rules out these two steps; in a run of careful steps every proof that was
sealed verifies in every later state, under the formula its world recorded (`sealed_verifies`).
-/
namespace Metalogos.Embodied

open Metalogos.Lib

section

variable {sha256Hex : String → String} {s : EmbodiedState}

/-- The proof's world recorded the formula that its chunk was made under. -/
def SameFormula (sha256Hex : String → String) (s : EmbodiedState) (p : ProofRecord) : Prop :=
  ∃ c d, s.chunks.get p.chunkId = some c ∧ s.devices.get c.device = some d ∧
    ∃ f ∈ s.formulas, f.id = c.bounds ∧ p.worldHash = worldDigest sha256Hex d.backend (some f)

/-- No proof is left behind by a formula that is replaced, and a proof is sealed under the formula that its
device carries and its world recorded. -/
def Careful (sha256Hex : String → String) (s : EmbodiedState) : Op → Prop
  | .boundsAttach device text _ => trimmed text ≠ "" →
    ∀ d f, s.devices.get device = some d → d.bounds = some f →
      ∀ k p, s.proofs.get k = some p → p.boundsId ≠ f.id
  | .proofSeal world chunk _ _ =>
    ∀ w c, s.worlds.get world = some w → s.chunks.get chunk = some c → c.device = w.device →
      ∃ d f, s.devices.get c.device = some d ∧ d.bounds = some f ∧ f.id = c.bounds ∧
        w.digest = worldDigest sha256Hex d.backend (some f)
  | _ => True

def CarefulAll (sha256Hex : String → String) : EmbodiedState → List Op → Prop
  | _, [] => True
  | s, op :: ops => Careful sha256Hex s op ∧ CarefulAll sha256Hex (s.step sha256Hex op) ops

/-- A digest is 64 hex digits. -/
def HexDigests (sha256Hex : String → String) : Prop :=
  ∀ x, (sha256Hex x).utf8ByteSize = 64 ∧ (sha256Hex x).toList.all isHexDigit = true

/-! ## Sealed proofs -/

/-- What keeps a proof valid. -/
structure Sealed (sha256Hex : String → String) (s : EmbodiedState) (p : ProofRecord) : Prop where
  signature : p.signatureValid sha256Hex = true
  verdict : p.verdict = .pending
  bound : ∃ c d f, s.chunks.get p.chunkId = some c ∧ c.bounds = p.boundsId ∧
    s.devices.get c.device = some d ∧ d.bounds = some f ∧ f.id = p.boundsId ∧ f ∈ s.formulas ∧
    p.worldHash = worldDigest sha256Hex d.backend (some f)

/-- What every reachable registry is. -/
structure Sound (sha256Hex : String → String) (s : EmbodiedState) : Prop where
  backends : ∀ k d, s.devices.get k = some d → ∃ e, findByName d.backend = some e ∧ e.cls = .embodiedSim
  attached : ∀ k d f, s.devices.get k = some d → d.bounds = some f → f ∈ s.formulas
  devices : ∀ k d, s.devices.get k = some d → k ∈ s.minted
  chunks : ∀ k c, s.chunks.get k = some c → k ∈ s.minted ∧ c.id = k
  proofs : ∀ k p, s.proofs.get k = some p → k ∈ s.minted ∧ Sealed sha256Hex s p

theorem sound_start : Sound sha256Hex .start := by
  constructor <;> exact nofun

theorem Sealed.sameFormula {p : ProofRecord} (h : Sealed sha256Hex s p) : SameFormula sha256Hex s p := by
  obtain ⟨c, d, f, hc, hcb, hd, -, hf, hmem, hw⟩ := h.bound
  exact ⟨c, d, hc, hd, f, hmem, hf.trans hcb.symm, hw⟩

/-- Nothing is wrong with a sealed proof. -/
theorem validate_sealed {p : ProofRecord} (hhex : HexDigests sha256Hex) (hs : Sound sha256Hex s)
    (h : Sealed sha256Hex s p) : validateProofRecord sha256Hex p s = [] := by
  obtain ⟨c, d, f, hc, hcb, hd, hdf, hf, -, hw⟩ := h.bound
  obtain ⟨e, he, hsim⟩ := hs.backends _ _ hd
  have hknown : (s.devices.pairs.any fun d => d.2.bounds.map (·.id) == some p.boundsId) = true := by
    rw [List.any_eq_true]
    exact ⟨_, Dict.mem_pairs_of_get hd, by simp [hdf, hf]⟩
  have hhash := hhex ("world|" ++ d.backend ++ "|" ++ ((some f).map (·.digest sha256Hex)).getD "unbounded" ++ "|0")
  rw [worldDigest] at hw
  rw [← hw] at hhash
  simp only [validateProofRecord, h.signature, h.verdict, hknown, hc, hd, he, hsim, hhash.1, hhash.2,
    Verdict.asStr, Verdict.parse]
  simp

/-- A proof whose formula no device carries is invalid. -/
theorem invalid_of_unresolved {fnName k : String} {report : ProofReport}
    (hreport : s.proofVerify sha256Hex fnName k = .ok report)
    (hunknown : ∀ p, s.proofs.get k = some p → ∀ d ∈ s.devices.pairs, d.2.bounds.map (·.id) ≠ some p.boundsId) :
    report.valid ≠ true := by
  unfold EmbodiedState.proofVerify at hreport
  cases hk : s.proofs.get k with
  | none =>
    rw [hk] at hreport
    cases hreport
  | some p =>
    rw [hk] at hreport
    obtain rfl := Except.ok.inj hreport
    have hany : (s.devices.pairs.any fun d => d.2.bounds.map (·.id) == some p.boundsId) = false := by
      rw [List.any_eq_false]
      exact fun d hd => by simpa using hunknown p hk d hd
    simp [validateProofRecord, hany]

theorem signatureValid_sign (p : ProofRecord) : (p.sign sha256Hex).signatureValid sha256Hex = true := by
  have hsame : (p.sign sha256Hex).canonical = p.canonical := rfl
  rw [ProofRecord.signatureValid, hsame, ProofRecord.sign, beq_self_eq_true]

theorem verify_of_validate {fnName k : String} {p : ProofRecord} (hk : s.proofs.get k = some p)
    (hv : validateProofRecord sha256Hex p s = []) :
    ∃ report, s.proofVerify sha256Hex fnName k = .ok report ∧ report.valid = true := by
  unfold EmbodiedState.proofVerify
  rw [hk]
  exact ⟨_, rfl, by rw [hv, List.isEmpty_nil]⟩

/-- A proof stays sealed while its chunk stays and the device keeps its formula. -/
theorem Sealed.mono {s' : EmbodiedState} {p : ProofRecord} (h : Sealed sha256Hex s p)
    (hchunks : ∀ k c, s.chunks.get k = some c → s'.chunks.get k = some c)
    (hdevices : ∀ k d f, s.devices.get k = some d → d.bounds = some f → f.id = p.boundsId →
      ∃ d', s'.devices.get k = some d' ∧ d'.bounds = some f ∧ d'.backend = d.backend)
    (hformulas : ∀ f ∈ s.formulas, f ∈ s'.formulas) : Sealed sha256Hex s' p := by
  obtain ⟨c, d, f, hc, hcb, hd, hdf, hf, hmem, hw⟩ := h.bound
  obtain ⟨d', hd', hdf', hb⟩ := hdevices _ d f hd hdf hf
  exact ⟨h.signature, h.verdict, c, d', f, hchunks _ c hc, hcb, hd', hdf', hf, hformulas f hmem, hb ▸ hw⟩

/-! ## What each operation does -/

variable (sha256Hex s) in
theorem deviceOpen_cases {fnName backend : String} {boundsText : Option String} {millis millis' : Nat} :
    (s.deviceOpen sha256Hex fnName backend boundsText millis millis').2 = s ∨
    ∃ e ids id bounds seq, findByName backend = some e ∧ e.cls = .embodiedSim ∧
      (s.deviceOpen sha256Hex fnName backend boundsText millis millis').2 =
        { s with devices := s.devices.set id ⟨id, backend, bounds⟩
                 formulas := s.formulas ++ bounds.toList, seq := seq, minted := s.minted ++ ids ++ [id] } := by
  unfold EmbodiedState.deviceOpen
  cases he : findByName backend with
  | none => exact .inl rfl
  | some e =>
    by_cases hsim : e.cls = .embodiedSim
    · simp only [hsim, ne_eq, not_true_eq_false, if_false]
      cases boundsText with
      | none =>
        refine .inr ⟨e, [], (s.freshId sha256Hex "dev" backend millis').1, none, s.seq + 1, rfl, hsim, ?_⟩
        rw [List.append_nil]
        rfl
      | some text =>
        dsimp only
        split
        · exact .inl rfl
        · exact .inr ⟨e, [_], _, some _, _, rfl, hsim, rfl⟩
    · simp only [ne_eq, hsim, not_false_eq_true, if_true]
      exact .inl trivial

variable (sha256Hex s) in
theorem boundsAttach_cases {fnName device text : String} {millis : Nat} :
    (s.boundsAttach sha256Hex fnName device text millis).2 = s ∨
    ∃ d f seq, trimmed text ≠ "" ∧ s.devices.get device = some d ∧
      (s.boundsAttach sha256Hex fnName device text millis).2 =
        { s with devices := s.devices.set device { d with bounds := some f }
                 formulas := s.formulas ++ [f], seq := seq, minted := s.minted ++ [f.id] } := by
  unfold EmbodiedState.boundsAttach
  split
  · exact .inl rfl
  · rename_i htext
    cases hd : s.devices.get device with
    | none => exact .inl rfl
    | some d => exact .inr ⟨d, ⟨_, trimmed text⟩, _, htext, rfl, rfl⟩

variable (sha256Hex s) in
theorem worldState_cases {fnName device : String} {millis : Nat} :
    (s.worldState sha256Hex fnName device millis).2 = s ∨
    ∃ w id seq, (s.worldState sha256Hex fnName device millis).2 =
      { s with worlds := s.worlds.set id w, seq := seq, minted := s.minted ++ [id] } := by
  unfold EmbodiedState.worldState
  cases s.devices.get device with
  | none => exact .inl rfl
  | some d => exact .inr ⟨_, _, _, rfl⟩

variable (sha256Hex s) in
theorem goalMake_cases {fnName text : String} {millis : Nat} :
    (s.goalMake sha256Hex fnName text millis).2 = s ∨
    ∃ id seq, (s.goalMake sha256Hex fnName text millis).2 =
      { s with goals := s.goals.set id (trimmed text), seq := seq, minted := s.minted ++ [id] } := by
  unfold EmbodiedState.goalMake
  split
  · exact .inl rfl
  · exact .inr ⟨_, _, rfl⟩

variable (sha256Hex s) in
theorem chunkMake_cases {fnName device trajectory : String} {goal : Option String} {millis : Nat} :
    (s.chunkMake sha256Hex fnName device trajectory goal millis).2 = s ∨
    ∃ c seq, (s.chunkMake sha256Hex fnName device trajectory goal millis).2 =
      { s with chunks := s.chunks.set c.id c, seq := seq, minted := s.minted ++ [c.id] } := by
  unfold EmbodiedState.chunkMake
  cases s.devices.get device with
  | none => exact .inl rfl
  | some d =>
    cases hb : d.bounds with
    | none => exact .inl (by simp only [hb])
    | some f =>
      simp only [hb]
      split
      · exact .inl rfl
      · split
        · exact .inl rfl
        · exact .inr ⟨⟨_, device, trajectory, goal, f.id⟩, _, rfl⟩

variable (sha256Hex s) in
theorem proofSeal_cases {fnName world chunk : String} {telemetry : Option String} {millis : Nat} :
    ((∃ e, (s.proofSeal sha256Hex fnName world chunk telemetry millis).1 = .error e) ∧
      (s.proofSeal sha256Hex fnName world chunk telemetry millis).2 = s) ∨
    ∃ w c id seq, s.worlds.get world = some w ∧ s.chunks.get chunk = some c ∧ c.device = w.device ∧
      (s.proofSeal sha256Hex fnName world chunk telemetry millis).1 =
        .ok (proofValue (sealRecord sha256Hex id w c telemetry)) ∧
      (s.proofSeal sha256Hex fnName world chunk telemetry millis).2 =
        { s with proofs := s.proofs.set id (sealRecord sha256Hex id w c telemetry), seq := seq
                 minted := s.minted ++ [id] } := by
  unfold EmbodiedState.proofSeal
  cases hw : s.worlds.get world with
  | none => exact .inl ⟨⟨_, rfl⟩, rfl⟩
  | some w =>
    cases hc : s.chunks.get chunk with
    | none => exact .inl ⟨⟨_, rfl⟩, rfl⟩
    | some c =>
      by_cases hdev : c.device = w.device
      · simp only [hdev, ne_eq, not_true_eq_false, if_false]
        exact .inr ⟨w, c, _, _, rfl, rfl, hdev, rfl, rfl⟩
      · simp only [ne_eq, hdev, not_false_eq_true, if_true]
        exact .inl ⟨⟨_, rfl⟩, trivial⟩

/-! ## A step -/

variable (sha256Hex s) in
theorem minted_step (op : Op) : ∃ ids, (s.step sha256Hex op).minted = s.minted ++ ids := by
  unfold EmbodiedState.step EmbodiedState.exec
  cases op with
  | deviceOpen backend bounds millis millis' =>
    dsimp only
    rcases deviceOpen_cases sha256Hex s with h | ⟨_, ids, id, _, _, _, _, h⟩ <;> rw [h]
    · exact ⟨[], (List.append_nil _).symm⟩
    · exact ⟨ids ++ [id], List.append_assoc _ _ _⟩
  | boundsAttach device text millis =>
    dsimp only
    rcases boundsAttach_cases sha256Hex s with h | ⟨_, f, _, _, _, h⟩ <;> rw [h]
    · exact ⟨[], (List.append_nil _).symm⟩
    · exact ⟨[f.id], rfl⟩
  | worldState device millis =>
    dsimp only
    rcases worldState_cases sha256Hex s with h | ⟨_, id, _, h⟩ <;> rw [h]
    · exact ⟨[], (List.append_nil _).symm⟩
    · exact ⟨[id], rfl⟩
  | poseMake coordinates millis => exact ⟨[_], rfl⟩
  | trajectoryMake points millis => exact ⟨[_], rfl⟩
  | goalMake text millis =>
    dsimp only
    rcases goalMake_cases sha256Hex s with h | ⟨id, _, h⟩ <;> rw [h]
    · exact ⟨[], (List.append_nil _).symm⟩
    · exact ⟨[id], rfl⟩
  | chunkMake device trajectory goal millis =>
    dsimp only
    rcases chunkMake_cases sha256Hex s with h | ⟨c, _, h⟩ <;> rw [h]
    · exact ⟨[], (List.append_nil _).symm⟩
    · exact ⟨[c.id], rfl⟩
  | proofSeal world chunk telemetry millis =>
    dsimp only
    rcases proofSeal_cases sha256Hex s with ⟨-, h⟩ | ⟨_, _, id, _, _, _, _, _, h⟩ <;> rw [h]
    · exact ⟨[], (List.append_nil _).symm⟩
    · exact ⟨[id], rfl⟩

theorem not_mem_of_nodup {ids : List String} {id : String} (h : (ids ++ [id]).Nodup) : id ∉ ids :=
  fun hmem => (List.nodup_append.1 h).2.2 id hmem id (List.mem_singleton_self id) rfl

theorem get_set_of_mem {α : Type} {d : Dict String α} {ids : List String} {k id : String} {v v' : α}
    (hid : id ∉ ids) (hk : k ∈ ids) (h : d.get k = some v) : (d.set id v').get k = some v := by
  rw [Dict.get_set, if_neg (fun he : k = id => hid (he ▸ hk)), h]

/-- A step that leaves devices, chunks and proofs alone. -/
theorem Sound.frame {s' : EmbodiedState} (h : Sound sha256Hex s) (hd : s'.devices = s.devices)
    (hc : s'.chunks = s.chunks) (hp : s'.proofs = s.proofs) (hf : s'.formulas = s.formulas)
    (hm : ∀ id ∈ s.minted, id ∈ s'.minted) : Sound sha256Hex s' where
  backends k d hk := h.backends k d (hd ▸ hk)
  attached k d f hk hdf := hf ▸ h.attached k d f (hd ▸ hk) hdf
  devices k d hk := hm k (h.devices k d (hd ▸ hk))
  chunks k c hk := ⟨hm k (h.chunks k c (hc ▸ hk)).1, (h.chunks k c (hc ▸ hk)).2⟩
  proofs k p hk := by
    obtain ⟨hmem, hsealed⟩ := h.proofs k p (hp ▸ hk)
    refine ⟨hm k hmem, hsealed.mono (fun _ _ hg => hc ▸ hg) (fun k d f hg hdf _ => ?_) (fun f hg => hf ▸ hg)⟩
    exact ⟨d, hd ▸ hg, hdf, rfl⟩

theorem Sound.opened {e : BackendEntry} {ids : List String} {id backend : String}
    {bounds : Option BoundsFormula} {seq : Nat} (h : Sound sha256Hex s) (hb : findByName backend = some e)
    (hsim : e.cls = .embodiedSim) (hid : id ∉ s.minted ++ ids) :
    Sound sha256Hex { s with
      devices := s.devices.set id ⟨id, backend, bounds⟩, formulas := s.formulas ++ bounds.toList, seq := seq
      minted := s.minted ++ ids ++ [id] } := by
  have hnew : id ∉ s.minted := fun hmem => hid (List.mem_append_left _ hmem)
  have hold {k : String} (hk : k ∈ s.minted) : k ∈ s.minted ++ ids ++ [id] := by simp [hk]
  refine ⟨fun k d hk => ?_, fun k d f hk hdf => ?_, fun k d hk => ?_, fun k c hk => ?_, fun k p hk => ?_⟩
  · rw [Dict.get_set] at hk
    split_ifs at hk with hkid
    · cases hk
      exact ⟨e, hb, hsim⟩
    · exact h.backends k d hk
  · rw [Dict.get_set] at hk
    split_ifs at hk with hkid
    · cases hk
      exact List.mem_append_right _ (Option.mem_toList.2 hdf)
    · exact List.mem_append_left _ (h.attached k d f hk hdf)
  · rw [Dict.get_set] at hk
    split_ifs at hk with hkid
    · simp [hkid]
    · exact hold (h.devices k d hk)
  · exact ⟨hold (h.chunks k c hk).1, (h.chunks k c hk).2⟩
  · obtain ⟨hmem, hsealed⟩ := h.proofs k p hk
    refine ⟨hold hmem, hsealed.mono (fun _ _ hg => hg) (fun k d f hg hdf _ => ?_) fun f hg => ?_⟩
    · exact ⟨d, get_set_of_mem hnew (h.devices k d hg) hg, hdf, rfl⟩
    · exact List.mem_append_left _ hg

theorem Sound.reattached {device : String} {d : DeviceProfile} {f : BoundsFormula} {seq : Nat}
    (h : Sound sha256Hex s) (hd : s.devices.get device = some d)
    (hcareful : ∀ f₀, d.bounds = some f₀ → ∀ k p, s.proofs.get k = some p → p.boundsId ≠ f₀.id) :
    Sound sha256Hex { s with
      devices := s.devices.set device { d with bounds := some f }, formulas := s.formulas ++ [f], seq := seq
      minted := s.minted ++ [f.id] } := by
  have hold {k : String} (hk : k ∈ s.minted) : k ∈ s.minted ++ [f.id] := List.mem_append_left _ hk
  refine ⟨fun k d' hk => ?_, fun k d' f' hk hdf => ?_, fun k d' hk => ?_, fun k c hk => ?_, fun k p hk => ?_⟩
  · rw [Dict.get_set] at hk
    split_ifs at hk with hkd
    · cases hk
      exact h.backends device d hd
    · exact h.backends k d' hk
  · rw [Dict.get_set] at hk
    split_ifs at hk with hkd
    · cases hk
      cases hdf
      exact List.mem_append_right _ (List.mem_singleton_self f)
    · exact List.mem_append_left _ (h.attached k d' f' hk hdf)
  · rw [Dict.get_set] at hk
    split_ifs at hk with hkd
    · exact hold (hkd ▸ h.devices device d hd)
    · exact hold (h.devices k d' hk)
  · exact ⟨hold (h.chunks k c hk).1, (h.chunks k c hk).2⟩
  · obtain ⟨hmem, hsealed⟩ := h.proofs k p hk
    refine ⟨hold hmem, hsealed.mono (fun _ _ hg => hg) (fun k' d' f' hg hdf hid => ?_) fun f' hg => ?_⟩
    · have hne : k' ≠ device := by
        rintro rfl
        obtain rfl : d = d' := Option.some.inj (hd.symm.trans hg)
        exact hcareful f' hdf k p hk hid.symm
      exact ⟨d', by rw [Dict.get_set, if_neg hne, hg], hdf, rfl⟩
    · exact List.mem_append_left _ hg

theorem Sound.chunked {c : ChunkData} {seq : Nat} (h : Sound sha256Hex s) (hid : c.id ∉ s.minted) :
    Sound sha256Hex { s with chunks := s.chunks.set c.id c, seq := seq, minted := s.minted ++ [c.id] } := by
  have hold {k : String} (hk : k ∈ s.minted) : k ∈ s.minted ++ [c.id] := List.mem_append_left _ hk
  refine ⟨h.backends, h.attached, fun k d hk => hold (h.devices k d hk), fun k c' hk => ?_, fun k p hk => ?_⟩
  · rw [Dict.get_set] at hk
    split_ifs at hk with hkc
    · cases hk
      exact ⟨by simp [hkc], hkc.symm⟩
    · exact ⟨hold (h.chunks k c' hk).1, (h.chunks k c' hk).2⟩
  · obtain ⟨hmem, hsealed⟩ := h.proofs k p hk
    refine ⟨hold hmem, hsealed.mono (fun k c' hg => ?_) (fun k d f hg hdf _ => ?_) fun f hg => hg⟩
    · exact get_set_of_mem hid (h.chunks k c' hg).1 hg
    · exact ⟨d, hg, hdf, rfl⟩

theorem Sound.sealed {w : WorldSnapshot} {c : ChunkData} {chunk id : String} {telemetry : Option String} {seq : Nat}
    (h : Sound sha256Hex s) (hc : s.chunks.get chunk = some c)
    (hcareful : ∃ d f, s.devices.get c.device = some d ∧ d.bounds = some f ∧ f.id = c.bounds ∧
      w.digest = worldDigest sha256Hex d.backend (some f)) :
    Sound sha256Hex { s with
      proofs := s.proofs.set id (sealRecord sha256Hex id w c telemetry), seq := seq
      minted := s.minted ++ [id] } := by
  have hold {k : String} (hk : k ∈ s.minted) : k ∈ s.minted ++ [id] := List.mem_append_left _ hk
  refine ⟨h.backends, h.attached, fun k d hk => hold (h.devices k d hk),
    fun k c hk => ⟨hold (h.chunks k c hk).1, (h.chunks k c hk).2⟩, fun k p hk => ?_⟩
  rw [Dict.get_set] at hk
  split_ifs at hk with hkid
  · cases hk
    obtain ⟨d, f, hd, hdf, hf, hw⟩ := hcareful
    have hchunk : s.chunks.get c.id = some c := by rw [(h.chunks chunk c hc).2, hc]
    exact ⟨by simp [hkid], signatureValid_sign _, rfl, c, d, f, hchunk, rfl, hd, hdf, hf, h.attached _ d f hd hdf, hw⟩
  · obtain ⟨hmem, hsealed⟩ := h.proofs k p hk
    exact ⟨hold hmem, hsealed.mono (fun _ _ hg => hg) (fun _ d _ hg hdf _ => ⟨d, hg, hdf, rfl⟩) fun _ hg => hg⟩

theorem Sound.step {op : Op} (h : Sound sha256Hex s) (hc : Careful sha256Hex s op)
    (hnodup : (s.step sha256Hex op).minted.Nodup) : Sound sha256Hex (s.step sha256Hex op) := by
  have hsame {s' : EmbodiedState} (he : s' = s) : Sound sha256Hex s' := he ▸ h
  cases op with
  | deviceOpen backend bounds millis millis' =>
    rcases deviceOpen_cases sha256Hex s with he | ⟨_, _, _, _, _, hb, hsim, he⟩
    · exact hsame he
    · rw [EmbodiedState.step, EmbodiedState.exec, he] at hnodup ⊢
      exact h.opened hb hsim (not_mem_of_nodup hnodup)
  | boundsAttach device text millis =>
    rcases boundsAttach_cases sha256Hex s with he | ⟨d, f, _, htext, hd, he⟩
    · exact hsame he
    · rw [EmbodiedState.step, EmbodiedState.exec, he]
      exact h.reattached hd fun f₀ hf₀ => hc htext d f₀ hd hf₀
  | worldState device millis =>
    rcases worldState_cases sha256Hex s with he | ⟨_, id, _, he⟩
    · exact hsame he
    · rw [EmbodiedState.step, EmbodiedState.exec, he]
      exact h.frame rfl rfl rfl rfl fun _ => List.mem_append_left _
  | poseMake coordinates millis => exact h.frame rfl rfl rfl rfl fun _ => List.mem_append_left _
  | trajectoryMake points millis => exact h.frame rfl rfl rfl rfl fun _ => List.mem_append_left _
  | goalMake text millis =>
    rcases goalMake_cases sha256Hex s with he | ⟨id, _, he⟩
    · exact hsame he
    · rw [EmbodiedState.step, EmbodiedState.exec, he]
      exact h.frame rfl rfl rfl rfl fun _ => List.mem_append_left _
  | chunkMake device trajectory goal millis =>
    rcases chunkMake_cases sha256Hex s with he | ⟨c, _, he⟩
    · exact hsame he
    · rw [EmbodiedState.step, EmbodiedState.exec, he] at hnodup ⊢
      exact h.chunked (not_mem_of_nodup hnodup)
  | proofSeal world chunk telemetry millis =>
    rcases proofSeal_cases sha256Hex s with ⟨-, he⟩ | ⟨w, c, id, _, hw, hchunk, hdev, -, he⟩
    · exact hsame he
    · rw [EmbodiedState.step, EmbodiedState.exec, he]
      exact h.sealed hchunk (hc w c hw hchunk hdev)

/-- A proof that was sealed stays as it is. -/
theorem proofs_step {op : Op} {k : String} {p : ProofRecord} (h : Sound sha256Hex s)
    (hnodup : (s.step sha256Hex op).minted.Nodup) (hk : s.proofs.get k = some p) :
    (s.step sha256Hex op).proofs.get k = some p := by
  unfold EmbodiedState.step EmbodiedState.exec at hnodup ⊢
  cases op with
  | deviceOpen backend bounds millis millis' =>
    dsimp only
    rcases deviceOpen_cases sha256Hex s with he | ⟨_, _, _, _, _, _, _, he⟩ <;> rw [he] <;> exact hk
  | boundsAttach device text millis =>
    dsimp only
    rcases boundsAttach_cases sha256Hex s with he | ⟨_, _, _, _, _, he⟩ <;> rw [he] <;> exact hk
  | worldState device millis =>
    dsimp only
    rcases worldState_cases sha256Hex s with he | ⟨_, _, _, he⟩ <;> rw [he] <;> exact hk
  | poseMake coordinates millis => exact hk
  | trajectoryMake points millis => exact hk
  | goalMake text millis =>
    dsimp only
    rcases goalMake_cases sha256Hex s with he | ⟨_, _, he⟩ <;> rw [he] <;> exact hk
  | chunkMake device trajectory goal millis =>
    dsimp only
    rcases chunkMake_cases sha256Hex s with he | ⟨_, _, he⟩ <;> rw [he] <;> exact hk
  | proofSeal world chunk telemetry millis =>
    dsimp only at hnodup ⊢
    rcases proofSeal_cases sha256Hex s with ⟨-, he⟩ | ⟨_, _, id, _, _, _, _, -, he⟩ <;> rw [he] at hnodup ⊢
    · exact hk
    · exact get_set_of_mem (not_mem_of_nodup hnodup) (h.proofs k p hk).1 hk

/-! ## A run -/

theorem minted_run (sha256Hex : String → String) (s : EmbodiedState) (ops : List Op) : ∃ ids, (s.run sha256Hex ops).minted = s.minted ++ ids := by
  induction ops generalizing s with
  | nil => exact ⟨[], (List.append_nil _).symm⟩
  | cons op ops ih =>
    obtain ⟨ids, hids⟩ := minted_step sha256Hex s op
    obtain ⟨ids', hids'⟩ := ih (s.step sha256Hex op)
    exact ⟨ids ++ ids', by rw [← List.append_assoc, ← hids]; exact hids'⟩

theorem nodup_of_run (ops : List Op) (h : (s.run sha256Hex ops).minted.Nodup) : s.minted.Nodup := by
  obtain ⟨ids, hids⟩ := minted_run sha256Hex s ops
  rw [hids] at h
  exact (List.nodup_append.1 h).1

/-- A run of careful steps stays sound, and keeps the proofs it has. -/
theorem Sound.run {ops : List Op} (h : Sound sha256Hex s) (hc : CarefulAll sha256Hex s ops)
    (hnodup : (s.run sha256Hex ops).minted.Nodup) :
    Sound sha256Hex (s.run sha256Hex ops) ∧
      ∀ k p, s.proofs.get k = some p → (s.run sha256Hex ops).proofs.get k = some p := by
  induction ops generalizing s with
  | nil => exact ⟨h, fun _ _ hk => hk⟩
  | cons op ops ih =>
    have hstep : (s.step sha256Hex op).minted.Nodup := nodup_of_run ops hnodup
    obtain ⟨hsound, hkeep⟩ := ih (h.step hc.1 hstep) hc.2 hnodup
    exact ⟨hsound, fun k p hk => hkeep k p (proofs_step h hstep hk)⟩

theorem run_append (pre post : List Op) :
    s.run sha256Hex (pre ++ post) = (s.run sha256Hex pre).run sha256Hex post := List.foldl_append

theorem run_cons (op : Op) (ops : List Op) :
    s.run sha256Hex (op :: ops) = (s.step sha256Hex op).run sha256Hex ops := rfl

theorem carefulAll_append {pre post : List Op} :
    CarefulAll sha256Hex s (pre ++ post) ↔
      CarefulAll sha256Hex s pre ∧ CarefulAll sha256Hex (s.run sha256Hex pre) post := by
  induction pre generalizing s with
  | nil => exact ⟨fun h => ⟨trivial, h⟩, And.right⟩
  | cons op pre ih => simp only [List.cons_append, CarefulAll, ih, and_assoc, EmbodiedState.run, List.foldl_cons]

/-- In a run of careful steps, under identifiers that do not collide, a proof that `proof_seal` returned is
valid in every later state, and its chunk was made under the formula its world recorded. -/
theorem sealed_verifies (sha256Hex : String → String) (hhex : HexDigests sha256Hex) (pre post : List Op)
    (world chunk : String) (telemetry : Option String) (millis : Nat) (proof : Handle)
    (hseal : ((EmbodiedState.start.run sha256Hex pre).exec sha256Hex
      (.proofSeal world chunk telemetry millis)).1 = .ok proof)
    (hcareful : CarefulAll sha256Hex .start (pre ++ .proofSeal world chunk telemetry millis :: post))
    (hnodup : (EmbodiedState.start.run sha256Hex
      (pre ++ .proofSeal world chunk telemetry millis :: post)).minted.Nodup) :
    (∃ report, (EmbodiedState.start.run sha256Hex (pre ++ .proofSeal world chunk telemetry millis :: post)).proofVerify
        sha256Hex "proof_verify" proof.id = .ok report ∧ report.valid = true) ∧
      ∃ p, (EmbodiedState.start.run sha256Hex
          (pre ++ .proofSeal world chunk telemetry millis :: post)).proofs.get proof.id = some p ∧
        SameFormula sha256Hex
          (EmbodiedState.start.run sha256Hex (pre ++ .proofSeal world chunk telemetry millis :: post)) p := by
  rw [carefulAll_append] at hcareful
  rw [run_append, run_cons] at hnodup ⊢
  obtain ⟨hpre, hop, hpost⟩ := hcareful
  have hstep : ((EmbodiedState.start.run sha256Hex pre).step sha256Hex
      (.proofSeal world chunk telemetry millis)).minted.Nodup := nodup_of_run post hnodup
  have hbefore : (EmbodiedState.start.run sha256Hex pre).minted.Nodup := nodup_of_run [_] hstep
  have hsound : Sound sha256Hex (EmbodiedState.start.run sha256Hex pre) := (sound_start.run hpre hbefore).1
  -- the proof enters the registry under the identifier that was returned
  obtain ⟨p, hp⟩ : ∃ p, ((EmbodiedState.start.run sha256Hex pre).step sha256Hex
      (.proofSeal world chunk telemetry millis)).proofs.get proof.id = some p := by
    rcases proofSeal_cases sha256Hex (EmbodiedState.start.run sha256Hex pre) with
      ⟨⟨e, he⟩, -⟩ | ⟨w, c, id, _, _, _, _, hok, he⟩
    · rw [EmbodiedState.exec, he] at hseal
      cases hseal
    · rw [EmbodiedState.exec, hok] at hseal
      cases hseal
      refine ⟨sealRecord sha256Hex id w c telemetry, ?_⟩
      rw [EmbodiedState.step, EmbodiedState.exec, he]
      exact (Dict.get_set _ _ _ _).trans (if_pos rfl)
  obtain ⟨hlast, hkeep⟩ := (hsound.step hop hstep).run hpost hnodup
  have hfound := hkeep _ _ hp
  have hsealed := (hlast.proofs _ _ hfound).2
  exact ⟨verify_of_validate hfound (validate_sealed hhex hlast hsealed), p, hfound, hsealed.sameFormula⟩

end

/-! ## Two runs -/

/-- What is hashed in the two runs, with its digests. -/
def Sample.digests : List (String × Nat) :=
  [("embodied-mock-device|1|1|bnd",
      0x539025468aa517e3570f33833cd393aad88f5691c21dbfa6b4ecc5bc48513bb4),
    ("embodied-mock-device|1|2|dev",
      0x3221916d5b579dd03ff8e699fd8e29d8c00b766166755a0f9aa64a38907550bf),
    ("points=1|1|3|trj",
      0x83f597e1fa8b784f7a9f4fa809c00881655b7aaf11d253f4b84696393da732e2),
    ("dev-3221916d5b579dd0|trj-83f597e1fa8b784f|1|4|chk",
      0x6fbf19829f7d9a5d2c0133fffda09b7a160fce1efff42ed596042912146ed6be),
    ("dev-3221916d5b579dd0|1|5|wld",
      0x4a155aa2322133d66005a304067dd432b13a305b6a83ac07e5da93d59d0bade3),
    ("always(speed <= 1)",
      0x740e21e40047ed5f78c9c571b99f3c0cf61f774cb30f3e9c318c180baa09dcc7),
    ("wld-4a155aa2322133d6|chk-6fbf19829f7d9a5d|1|6|prf",
      0x78c0b9deb0d4842a5cf633df550d8f73714cf860be41f95ff43fa6d35eb4b3a0),
    ("no-telemetry",
      0xf326395de2edff401a454ca12ddc4a1b65f2170a4c28a000812624c5ff7b4ae5),
    ("embodied-mock-device|1|7|dev",
      0x5c6226a43f7f336b3aba149d34b1b0e065d3c2f26e80338f9b913d597ba9ac97),
    ("embodied-mock-device|1|5|bnd",
      0x4c9120efcac1551234090847559a68b784afd4905689e93c70f4febb3c26b630),
    ("dev-3221916d5b579dd0|1|6|wld",
      0xedb1cb96c0acf4266fc9f59d241397ce96a774d65fa5cba4b75551d75da97c1a),
    ("always(speed <= 2)",
      0xb11d3f0db5d3c6678cc4bc472565b54784535932941cb5a865f044e4cce2e6f0),
    ("wld-edb1cb96c0acf426|chk-6fbf19829f7d9a5d|1|7|prf",
      0x2f680634b95a9d8bb19bd19b05bf189669a1569ce00f17bee84149efc71bc805),
    ("world|embodied-mock-device|740e21e40047ed5f78c9c571b99f3c0cf61f774cb30f3e9c318c180baa09dcc7|0",
      0xaf88dcb9c435e63b6ca18dceecc0cdad0563cd6f1e05ba31f544f09e4ba1c394),
    ("world|embodied-mock-device|b11d3f0db5d3c6678cc4bc472565b54784535932941cb5a865f044e4cce2e6f0|0",
      0xde1a52a0a37ae244967b442b835422adc0cba72e5721c2e737aef2829fb10e4c),
    ("sim|af88dcb9c435e63b6ca18dceecc0cdad0563cd6f1e05ba31f544f09e4ba1c394|chk-6fbf19829f7d9a5d|bnd-539025468aa517e3|trj-83f597e1fa8b784f",
      0x4905162f2340c87aff1f4a99d63a518f687ac40135c292109baf6afe809a0b22),
    ("metalogos-embodied-proof-v1 (naryad 355 / 343; stage-A mock contour)|af88dcb9c435e63b6ca18dceecc0cdad0563cd6f1e05ba31f544f09e4ba1c394|chk-6fbf19829f7d9a5d|bnd-539025468aa517e3|f326395de2edff401a454ca12ddc4a1b65f2170a4c28a000812624c5ff7b4ae5|pending|4905162f2340c87aff1f4a99d63a518f687ac40135c292109baf6afe809a0b22|pending",
      0xbfbe6c0d7d135985bec2c2ac95e885777c2732a54a776a0dededc70c4c0e8b07),
    ("sim|de1a52a0a37ae244967b442b835422adc0cba72e5721c2e737aef2829fb10e4c|chk-6fbf19829f7d9a5d|bnd-539025468aa517e3|trj-83f597e1fa8b784f",
      0x730ea888b7188e4fbb6041c6c91e5968a9f46d8095490032cd4a0b89467c48ad),
    ("metalogos-embodied-proof-v1 (naryad 355 / 343; stage-A mock contour)|de1a52a0a37ae244967b442b835422adc0cba72e5721c2e737aef2829fb10e4c|chk-6fbf19829f7d9a5d|bnd-539025468aa517e3|f326395de2edff401a454ca12ddc4a1b65f2170a4c28a000812624c5ff7b4ae5|pending|730ea888b7188e4fbb6041c6c91e5968a9f46d8095490032cd4a0b89467c48ad|pending",
      0x752eb7d52f36b91f96a8550ce0cf20bd23edff4c2c54e123f403c2f46486c4ab)]

/-- A 256-bit number as 64 hex digits. -/
def Sample.hex (n : Nat) : String := String.ofList ((List.range 64).map fun i => (n / 16 ^ (63 - i) % 16).digitChar)

def Sample.sha256Hex (x : String) : String := Sample.hex ((Sample.digests.lookup x).getD 0)

theorem utf8ByteSize_ofList {l : List Char} (h : ∀ c ∈ l, isHexDigit c = true) :
    (String.ofList l).utf8ByteSize = l.length := by
  induction l with
  | nil => rfl
  | cons c l ih =>
    have hc : c.utf8Size = 1 := by
      have hdigit := h c (by simp)
      simp only [isHexDigit, Bool.or_eq_true, Bool.and_eq_true, decide_eq_true_eq] at hdigit
      rw [Char.utf8Size_eq_one_iff]
      show c.toNat ≤ 127
      omega
    rw [String.ofList_cons, String.utf8ByteSize_append, String.utf8ByteSize_singleton, hc,
      ih fun c hc => h c (by simp [hc]), List.length_cons, Nat.add_comm]

theorem Sample.hexDigests : HexDigests Sample.sha256Hex := by
  intro x
  have hdigit : ∀ n < 16, isHexDigit n.digitChar = true := by decide
  have hall : ∀ c ∈ (List.range 64).map (fun i => ((Sample.digests.lookup x).getD 0 / 16 ^ (63 - i) % 16).digitChar),
      isHexDigit c = true := by
    intro c hc
    obtain ⟨i, -, rfl⟩ := List.mem_map.1 hc
    exact hdigit _ (Nat.mod_lt _ (by decide))
  constructor
  · rw [Sample.sha256Hex, Sample.hex, utf8ByteSize_ofList hall, List.length_map, List.length_range]
  · rw [Sample.sha256Hex, Sample.hex, String.toList_ofList]
    exact List.all_eq_true.2 hall

/-- A bounded device and a chunk of it. -/
def Sample.bounded : List Op :=
  [.deviceOpen "embodied-mock-device" (some "always(speed <= 1)") 1 1, .trajectoryMake 1 1,
    .chunkMake "dev-3221916d5b579dd0" "trj-83f597e1fa8b784f" none 1]

def Sample.slow : BoundsFormula := ⟨"bnd-539025468aa517e3", "always(speed <= 1)"⟩

def Sample.fast : BoundsFormula := ⟨"bnd-4c9120efcac15512", "always(speed <= 2)"⟩

def Sample.device (f : BoundsFormula) : Dict String DeviceProfile :=
  ⟨[("dev-3221916d5b579dd0", ⟨"dev-3221916d5b579dd0", "embodied-mock-device", some f⟩)]⟩

def Sample.world (id digest : String) : Dict String WorldSnapshot :=
  ⟨[(id, ⟨id, "dev-3221916d5b579dd0", 0, digest⟩)]⟩

/-- The registry after `bounded`. -/
def Sample.ready : EmbodiedState where
  devices := Sample.device Sample.slow
  worlds := .empty
  trajectories := ["trj-83f597e1fa8b784f"]
  goals := .empty
  chunks := ⟨[("chk-6fbf19829f7d9a5d", ⟨"chk-6fbf19829f7d9a5d", "dev-3221916d5b579dd0", "trj-83f597e1fa8b784f",
    none, "bnd-539025468aa517e3"⟩)]⟩
  proofs := .empty
  seq := 5
  formulas := [Sample.slow]
  minted := ["bnd-539025468aa517e3", "dev-3221916d5b579dd0", "trj-83f597e1fa8b784f", "chk-6fbf19829f7d9a5d"]

theorem Sample.run_bounded : EmbodiedState.start.run Sample.sha256Hex Sample.bounded = Sample.ready := by
  decide +kernel

/-- The registry with the world of the device. -/
theorem Sample.step_world : Sample.ready.run Sample.sha256Hex [.worldState "dev-3221916d5b579dd0" 1] =
    { Sample.ready with
      worlds := Sample.world "wld-4a155aa2322133d6" "af88dcb9c435e63b6ca18dceecc0cdad0563cd6f1e05ba31f544f09e4ba1c394"
      seq := 6, minted := Sample.ready.minted ++ ["wld-4a155aa2322133d6"] } := by
  decide +kernel

/-- Sealed over the world as it is. -/
theorem sealed_verifies_bounded : ∃ report,
    (EmbodiedState.start.run Sample.sha256Hex ((Sample.bounded ++ [.worldState "dev-3221916d5b579dd0" 1]) ++
      [.proofSeal "wld-4a155aa2322133d6" "chk-6fbf19829f7d9a5d" none 1])).proofVerify Sample.sha256Hex "proof_verify"
        "prf-78c0b9deb0d4842a" = .ok report ∧ report.valid = true := by
  have hpre := (run_append Sample.bounded [.worldState "dev-3221916d5b579dd0" 1]).trans
    (congrArg (·.run Sample.sha256Hex [.worldState "dev-3221916d5b579dd0" 1]) Sample.run_bounded)
  rw [Sample.step_world] at hpre
  refine (sealed_verifies Sample.sha256Hex Sample.hexDigests _ _ _ _ none 1
    ⟨"prf-78c0b9deb0d4842a", [("verdict", "pending")]⟩ ?_ ?_ ?_).1
  · rw [hpre]
    decide +kernel
  · refine carefulAll_append.2 ⟨⟨trivial, trivial, trivial, trivial, trivial⟩, ?_, trivial⟩
    rw [hpre]
    intro w c hw hc _
    cases hw
    cases hc
    exact ⟨_, Sample.slow, rfl, rfl, rfl, by decide +kernel⟩
  · rw [run_append, hpre]
    decide +kernel

/-- The registry with another formula on the device, and then its world. -/
theorem Sample.step_replaced : Sample.ready.run Sample.sha256Hex
    [.boundsAttach "dev-3221916d5b579dd0" "always(speed <= 2)" 1, .worldState "dev-3221916d5b579dd0" 1] =
    { Sample.ready with
      devices := Sample.device Sample.fast
      worlds := Sample.world "wld-edb1cb96c0acf426" "de1a52a0a37ae244967b442b835422adc0cba72e5721c2e737aef2829fb10e4c"
      seq := 7, formulas := [Sample.slow, Sample.fast]
      minted := Sample.ready.minted ++ ["bnd-4c9120efcac15512", "wld-edb1cb96c0acf426"] } := by
  decide +kernel

/-- A chunk whose formula is replaced before its world is taken: sealed, the proof is invalid at once. -/
theorem reattached_invalid : ¬ ∀ (sha256Hex : String → String), HexDigests sha256Hex →
    ∀ (pre post : List Op) (world chunk : String) (telemetry : Option String) (millis : Nat) (proof : Handle),
    ((EmbodiedState.start.run sha256Hex pre).exec sha256Hex
      (.proofSeal world chunk telemetry millis)).1 = .ok proof →
    (EmbodiedState.start.run sha256Hex (pre ++ .proofSeal world chunk telemetry millis :: post)).minted.Nodup →
    ∃ report, (EmbodiedState.start.run sha256Hex (pre ++ .proofSeal world chunk telemetry millis :: post)).proofVerify
      sha256Hex "proof_verify" proof.id = .ok report ∧ report.valid = true := by
  intro h
  have hpre := (run_append Sample.bounded _).trans (congrArg (·.run Sample.sha256Hex
    [.boundsAttach "dev-3221916d5b579dd0" "always(speed <= 2)" 1, .worldState "dev-3221916d5b579dd0" 1])
    Sample.run_bounded)
  rw [Sample.step_replaced] at hpre
  obtain ⟨report, hreport, hvalid⟩ := h Sample.sha256Hex Sample.hexDigests _ [] "wld-edb1cb96c0acf426"
    "chk-6fbf19829f7d9a5d" none 1 ⟨"prf-2f680634b95a9d8b", [("verdict", "pending")]⟩
    (by rw [hpre]; decide +kernel) (by rw [run_append, hpre]; decide +kernel)
  rw [run_append, hpre] at hreport
  refine absurd hvalid (invalid_of_unresolved hreport fun p hp => List.forall_mem_singleton.2 ?_)
  have hp' := (Dict.get_set _ _ _ _).symm.trans hp
  split_ifs at hp'
  · obtain rfl := Option.some.inj hp'
    show some "bnd-4c9120efcac15512" ≠ some "bnd-539025468aa517e3"
    decide
  · cases hp'

end Metalogos.Embodied
