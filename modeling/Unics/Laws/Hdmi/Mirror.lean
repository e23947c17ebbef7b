import Unics.Lib.Run
import Unics.Lib.Words
import Unics.Drivers.Hdmi

/-!
# The device structure and the registers

The device structure repeats what the controller holds: two bits of the control register, the
interrupt mask, and a timing that goes with the resolution. Three functions touch one side only.
`hdmi_init` asks for a mask before the device counts as initialized, so the register is never
written. `hdmi_reset` clears the control register and leaves the two flags. And a custom timing is
stored under the resolution that was set before.

`hdmi_mirrors_iff` is the exact condition over whole runs.
-/

namespace Unics

open Unics.Lib

/-! ## Registers -/

theorem hdmiReadReg_write (regs : HdmiRegs) (base o o' value : BitVec 32) :
    hdmiReadReg (hdmiWriteReg regs base o value) base o' =
      if o' = o then value else hdmiReadReg regs base o' := by
  unfold hdmiReadReg hdmiWriteReg
  split
  · next heq =>
    rw [heq, Function.update_self]
  · next hne =>
    refine Function.update_of_ne (fun heq => hne ?_) ..
    exact (BitVec.add_right_inj base).mp heq

theorem hdmiReadReg_write_self (regs : HdmiRegs) (base o value : BitVec 32) :
    hdmiReadReg (hdmiWriteReg regs base o value) base o = value := by
  rw [hdmiReadReg_write, if_pos rfl]

theorem hdmiReadReg_write_of_ne {o o' : BitVec 32} (h : o' ≠ o) (regs : HdmiRegs)
    (base value : BitVec 32) :
    hdmiReadReg (hdmiWriteReg regs base o value) base o' = hdmiReadReg regs base o' := by
  rw [hdmiReadReg_write, if_neg h]

/-- A register that holds no timing keeps its value when a timing is written. -/
theorem hdmiReadReg_timing {o : BitVec 32} (h : o < hdmiVideoTimingReg) (regs : HdmiRegs)
    (base : BitVec 32) (timing : HdmiVideoTiming) :
    hdmiReadReg (hdmiTimingRegs regs base timing) base o = hdmiReadReg regs base o := by
  have below : ∀ o', hdmiVideoTimingReg ≤ o' → o ≠ o' := by
    rintro _ hle rfl
    exact absurd h (BitVec.not_lt.mpr hle)
  unfold hdmiTimingRegs
  dsimp only
  rw [hdmiReadReg_write_of_ne (below _ (BitVec.le_refl _)),
    hdmiReadReg_write_of_ne (below hdmiVideoVBlank (by decide)),
    hdmiReadReg_write_of_ne (below hdmiVideoHBlank (by decide)),
    hdmiReadReg_write_of_ne (below hdmiVideoVSync (by decide)),
    hdmiReadReg_write_of_ne (below hdmiVideoHSync (by decide)),
    hdmiReadReg_write_of_ne (below hdmiVideoVActive (by decide)),
    hdmiReadReg_write_of_ne (below hdmiVideoHActive (by decide))]

/-- A register of zero has no bit set. -/
theorem no_bit (bit : BitVec 32) : ¬ (0 : BitVec 32) &&& bit ≠ 0 := not_not.mpr BitVec.zero_and

/-- The control register. -/
def Hdmi.ctrl (s : Hdmi) : BitVec 32 := hdmiReadReg s.regs s.device.config.baseAddr hdmiCoreCtrl

/-- The interrupt mask register. -/
def Hdmi.intrMask (s : Hdmi) : BitVec 32 :=
  hdmiReadReg s.regs s.device.config.baseAddr hdmiCoreIntrMask

/-! ## The property -/

/-- The device structure agrees with the registers, and the timing with the resolution. -/
structure HdmiMirrors (s : Hdmi) : Prop where
  audio : s.device.config.audioEnabled = true ↔ s.ctrl &&& hdmiCtrlAudioEn ≠ 0
  hdcp : s.device.config.hdcpEnabled = true ↔ s.ctrl &&& hdmiCtrlHdcpEn ≠ 0
  mask : s.device.interruptMask = s.intrMask
  timing : s.device.config.resolution ≠ .custom →
    standardTimings s.device.config.resolution = some s.device.config.videoTiming

/-- The calls of an initialized device. -/
inductive HdmiCall where
  | reset
  | enable (enable : Bool)
  | enableVideo (enable : Bool)
  | enableAudio (enable : Bool)
  | enableHdcp (enable : Bool)
  | setInterruptMask (mask : BitVec 32)
  | setResolution (resolution : HdmiResolution)
  | setCustomTiming (timing : Option HdmiVideoTiming)
  | setColorDepth (depth : HdmiColorDepth)
  | setAudioConfig (config : Option HdmiAudioConfig)
  | isConnected
  | isStable
  | clearInterrupts (mask : BitVec 32)

/-- The device and its registers after a call. -/
def hdmiStep (s : Hdmi) : HdmiCall → Hdmi
  | .reset => (hdmiReset s).1
  | .enable enable => (hdmiEnable s enable).1
  | .enableVideo enable => (hdmiEnableVideo s enable).1
  | .enableAudio enable => (hdmiEnableAudio s enable).1
  | .enableHdcp enable => (hdmiEnableHdcp s enable).1
  | .setInterruptMask mask => (hdmiSetInterruptMask s mask).1
  | .setResolution resolution => (hdmiSetResolution s resolution).1
  | .setCustomTiming timing => (hdmiSetCustomTiming s timing).1
  | .setColorDepth depth => (hdmiSetColorDepth s depth).1
  | .setAudioConfig config => (hdmiSetAudioConfig s config).1
  | .isConnected => (hdmiIsConnected s).1
  | .isStable => (hdmiIsStable s).1
  | .clearInterrupts mask => hdmiClearInterrupts s mask

/-- A reset comes while audio and HDCP are off, and a custom timing that is taken is the one of the
resolution. -/
def HdmiKeeps (s : Hdmi) : HdmiCall → Prop
  | .reset => s.device.config.audioEnabled = false ∧ s.device.config.hdcpEnabled = false
  | .setCustomTiming (some timing) => hdmiValidateTiming timing = 0 →
      standardTimings s.device.config.resolution = some timing
  | _ => True

/-! ## The invariant -/

/-- What a run keeps as long as its calls do. -/
structure HdmiSound (s : Hdmi) : Prop extends HdmiMirrors s where
  initialized : s.device.initialized = true
  standard : s.device.config.resolution ≠ .custom

/-- Two states that agree on what the invariant is about. -/
structure HdmiSame (s t : Hdmi) : Prop where
  audioEnabled : t.device.config.audioEnabled = s.device.config.audioEnabled
  hdcpEnabled : t.device.config.hdcpEnabled = s.device.config.hdcpEnabled
  interruptMask : t.device.interruptMask = s.device.interruptMask
  resolution : t.device.config.resolution = s.device.config.resolution
  videoTiming : t.device.config.videoTiming = s.device.config.videoTiming
  initialized : t.device.initialized = s.device.initialized
  audioBit : t.ctrl &&& hdmiCtrlAudioEn = s.ctrl &&& hdmiCtrlAudioEn
  hdcpBit : t.ctrl &&& hdmiCtrlHdcpEn = s.ctrl &&& hdmiCtrlHdcpEn
  intrMask : t.intrMask = s.intrMask

theorem HdmiSame.refl (s : Hdmi) : HdmiSame s s := ⟨rfl, rfl, rfl, rfl, rfl, rfl, rfl, rfl, rfl⟩

theorem HdmiSame.sound {s t : Hdmi} (h : HdmiSame s t) (hs : HdmiSound s) : HdmiSound t where
  audio := by
    rw [h.audioEnabled, h.audioBit]
    exact hs.audio
  hdcp := by
    rw [h.hdcpEnabled, h.hdcpBit]
    exact hs.hdcp
  mask := by
    rw [h.interruptMask, h.intrMask]
    exact hs.mask
  timing := by
    rw [h.resolution, h.videoTiming]
    exact hs.timing
  initialized := h.initialized.trans hs.initialized
  standard := by
    rw [h.resolution]
    exact hs.standard

/-! ## One call -/

/-- The control register after one of its bits is turned on or off. -/
theorem ctrl_ctrlBit (s : Hdmi) (bit : BitVec 32) (enable : Bool) :
    hdmiReadReg (hdmiCtrlBit s bit enable) s.device.config.baseAddr hdmiCoreCtrl =
      (s.ctrl &&& ~~~bit) ||| ((if enable then bit else 0) &&& bit) :=
  hdmiReadReg_write_self ..

theorem intrMask_ctrlBit (s : Hdmi) (bit : BitVec 32) (enable : Bool) :
    hdmiReadReg (hdmiCtrlBit s bit enable) s.device.config.baseAddr hdmiCoreIntrMask =
      s.intrMask :=
  hdmiReadReg_write_of_ne (by decide) ..

/-- A bit that is turned on or off reads back. -/
theorem ctrlBit_self {s : Hdmi} {bit : BitVec 32} (hbit : bit ≠ 0) (enable : Bool) :
    enable = true ↔
      hdmiReadReg (hdmiCtrlBit s bit enable) s.device.config.baseAddr hdmiCoreCtrl &&& bit ≠ 0 := by
  rw [ctrl_ctrlBit, modify_and_self]
  cases enable with
  | true => simpa only [if_true, BitVec.and_self, true_iff] using hbit
  | false =>
    simp only [Bool.false_eq_true, if_false, false_iff, not_not]
    exact BitVec.zero_and

theorem ctrlBit_other {s : Hdmi} {bit other : BitVec 32} (h : bit &&& other = 0) (enable : Bool) :
    hdmiReadReg (hdmiCtrlBit s bit enable) s.device.config.baseAddr hdmiCoreCtrl &&& other =
      s.ctrl &&& other := by
  rw [ctrl_ctrlBit, modify_and_of_disjoint h]

/-- Turning a bit that the device keeps no copy of. -/
theorem HdmiSame.ctrlBit (s : Hdmi) {bit : BitVec 32} (haudio : bit &&& hdmiCtrlAudioEn = 0)
    (hhdcp : bit &&& hdmiCtrlHdcpEn = 0) (enable : Bool) :
    HdmiSame s { s with regs := hdmiCtrlBit s bit enable } :=
  ⟨rfl, rfl, rfl, rfl, rfl, rfl, ctrlBit_other haudio enable, ctrlBit_other hhdcp enable,
    intrMask_ctrlBit s bit enable⟩

/-- A call that leaves the two registers and the fields that copy them. -/
theorem HdmiSame.regs (s : Hdmi) {device : HdmiDevice} {regs : HdmiRegs}
    (hctrl : hdmiReadReg regs s.device.config.baseAddr hdmiCoreCtrl = s.ctrl)
    (hintr : hdmiReadReg regs s.device.config.baseAddr hdmiCoreIntrMask = s.intrMask)
    (hbase : device.config.baseAddr = s.device.config.baseAddr)
    (haudio : device.config.audioEnabled = s.device.config.audioEnabled)
    (hhdcp : device.config.hdcpEnabled = s.device.config.hdcpEnabled)
    (hmask : device.interruptMask = s.device.interruptMask)
    (hres : device.config.resolution = s.device.config.resolution)
    (htiming : device.config.videoTiming = s.device.config.videoTiming)
    (hinit : device.initialized = s.device.initialized) : HdmiSame s { device, regs } := by
  have ctrl : Hdmi.ctrl { device, regs } = s.ctrl := by
    rw [Hdmi.ctrl, hbase]
    exact hctrl
  have mask : Hdmi.intrMask { device, regs } = s.intrMask := by
    rw [Hdmi.intrMask, hbase]
    exact hintr
  exact ⟨haudio, hhdcp, hmask, hres, htiming, hinit, by rw [ctrl], by rw [ctrl], mask⟩

/-- Every standard timing passes the driver's own check. -/
theorem standardTimings_valid {resolution : HdmiResolution} {timing : HdmiVideoTiming}
    (h : standardTimings resolution = some timing) : hdmiValidateTiming timing = 0 := by
  cases resolution with
  | custom => exact absurd h.symm (Option.some_ne_none timing)
  | _ =>
    obtain rfl := Option.some.inj h
    rfl

/-- A timing that is taken, and a resolution whose standard timing it is. -/
theorem HdmiSound.take_timing {s : Hdmi} (h : HdmiSound s) {resolution : HdmiResolution}
    {timing : HdmiVideoTiming} (hstd : standardTimings resolution = some timing) :
    HdmiSound
      { device := { s.device with config := { s.device.config with
          resolution, videoTiming := timing } }
        regs := hdmiTimingRegs s.regs s.device.config.baseAddr timing } := by
  have ctrl := hdmiReadReg_timing (o := hdmiCoreCtrl) (by decide) s.regs
    s.device.config.baseAddr timing
  have mask := hdmiReadReg_timing (o := hdmiCoreIntrMask) (by decide) s.regs
    s.device.config.baseAddr timing
  refine ⟨⟨?_, ?_, ?_, fun _ => hstd⟩, h.initialized, ?_⟩
  · rw [Hdmi.ctrl, ctrl]
    exact h.audio
  · rw [Hdmi.ctrl, ctrl]
    exact h.hdcp
  · rw [Hdmi.intrMask, mask]
    exact h.mask
  · rintro rfl
    exact absurd hstd.symm (Option.some_ne_none timing)

theorem hdmiSetCustomTiming_valid {s : Hdmi} {timing : HdmiVideoTiming}
    (hinit : s.device.initialized = true) (hvalid : hdmiValidateTiming timing = 0) :
    hdmiSetCustomTiming s (some timing) =
      ({ device := { s.device with config := { s.device.config with videoTiming := timing } }
         regs := hdmiTimingRegs s.regs s.device.config.baseAddr timing }, 0) := by
  unfold hdmiSetCustomTiming
  dsimp only
  rw [if_neg (by rw [hinit]; exact Bool.noConfusion), if_neg (not_not.mpr hvalid)]

/-- A custom timing that the check refuses changes nothing. -/
theorem hdmiSetCustomTiming_invalid {s : Hdmi} {timing : HdmiVideoTiming}
    (hvalid : hdmiValidateTiming timing ≠ 0) : (hdmiSetCustomTiming s (some timing)).1 = s := by
  simp only [hdmiSetCustomTiming, hvalid, ne_eq, not_false_eq_true, if_true, ite_self]

/-- The reset clears the control register. -/
theorem ctrl_reset (s : Hdmi) : (hdmiReset s).1.ctrl = 0 := hdmiReadReg_write_self ..

theorem intrMask_reset (s : Hdmi) : (hdmiReset s).1.intrMask = s.intrMask := by
  rw [Hdmi.intrMask, hdmiReset]
  dsimp only
  rw [hdmiReadReg_write_of_ne (by decide), hdmiReadReg_write_of_ne (by decide)]
  rfl

theorem HdmiSound.setResolution {s : Hdmi} (h : HdmiSound s) (resolution : HdmiResolution) :
    HdmiSound (hdmiSetResolution s resolution).1 := by
  have init := h.initialized
  unfold hdmiSetResolution
  cases hstd : standardTimings resolution with
  | none =>
    rw [init]
    exact h
  | some timing =>
    have valid := standardTimings_valid hstd
    have taken := h.take_timing hstd
    rw [init]
    dsimp only
    rw [hdmiSetCustomTiming_valid (by exact init) valid]
    exact taken

/-- A call that keeps its side keeps the invariant. -/
theorem HdmiSound.step {s : Hdmi} (h : HdmiSound s) {c : HdmiCall} (hc : HdmiKeeps s c) :
    HdmiSound (hdmiStep s c) := by
  have init : (!s.device.initialized) = false := by
    rw [h.initialized]
    rfl
  cases c with
  | reset =>
    obtain ⟨haudio, hhdcp⟩ := hc
    refine ⟨⟨?_, ?_, h.mask.trans (intrMask_reset s).symm, h.timing⟩, h.initialized, h.standard⟩
    · show s.device.config.audioEnabled = true ↔ (hdmiReset s).1.ctrl &&& _ ≠ 0
      rw [ctrl_reset, haudio]
      exact iff_of_false Bool.noConfusion (no_bit _)
    · show s.device.config.hdcpEnabled = true ↔ (hdmiReset s).1.ctrl &&& _ ≠ 0
      rw [ctrl_reset, hhdcp]
      exact iff_of_false Bool.noConfusion (no_bit _)
  | enable enable =>
    simp only [hdmiStep, hdmiEnable, init, Bool.false_eq_true, if_false]
    exact (HdmiSame.ctrlBit s (by decide) (by decide) enable).sound h
  | enableVideo enable =>
    simp only [hdmiStep, hdmiEnableVideo, init, Bool.false_eq_true, if_false]
    exact (HdmiSame.ctrlBit s (by decide) (by decide) enable).sound h
  | enableAudio enable =>
    simp only [hdmiStep, hdmiEnableAudio, init, Bool.false_eq_true, if_false]
    refine ⟨⟨ctrlBit_self (by decide) enable, ?_, ?_, h.timing⟩, h.initialized, h.standard⟩
    · rw [Hdmi.ctrl, ctrlBit_other (by decide)]
      exact h.hdcp
    · exact h.mask.trans (intrMask_ctrlBit s _ enable).symm
  | enableHdcp enable =>
    simp only [hdmiStep, hdmiEnableHdcp, init, Bool.false_eq_true, if_false]
    refine ⟨⟨?_, ctrlBit_self (by decide) enable, ?_, h.timing⟩, h.initialized, h.standard⟩
    · rw [Hdmi.ctrl, ctrlBit_other (by decide)]
      exact h.audio
    · exact h.mask.trans (intrMask_ctrlBit s _ enable).symm
  | setInterruptMask mask =>
    simp only [hdmiStep, hdmiSetInterruptMask, init, Bool.false_eq_true, if_false]
    refine ⟨⟨?_, ?_, (hdmiReadReg_write_self ..).symm, h.timing⟩, h.initialized, h.standard⟩
    · rw [Hdmi.ctrl, hdmiReadReg_write_of_ne (by decide)]
      exact h.audio
    · rw [Hdmi.ctrl, hdmiReadReg_write_of_ne (by decide)]
      exact h.hdcp
  | setResolution resolution => exact h.setResolution resolution
  | setCustomTiming timing =>
    cases timing with
    | none => exact h
    | some timing =>
      by_cases hvalid : hdmiValidateTiming timing = 0
      · rw [hdmiStep, hdmiSetCustomTiming_valid h.initialized hvalid]
        exact h.take_timing (hc hvalid)
      · rw [hdmiStep, hdmiSetCustomTiming_invalid hvalid]
        exact h
  | setColorDepth depth =>
    simp only [hdmiStep, hdmiSetColorDepth, init, Bool.false_eq_true, if_false]
    refine HdmiSame.sound (.regs s ?_ ?_ rfl rfl rfl rfl rfl rfl rfl) h
    · exact hdmiReadReg_write_of_ne (by decide) ..
    · exact hdmiReadReg_write_of_ne (by decide) ..
  | setAudioConfig config =>
    cases config with
    | none => exact h
    | some config =>
      simp only [hdmiStep, hdmiSetAudioConfig, init, Bool.false_eq_true, if_false]
      refine HdmiSame.sound (.regs s ?_ ?_ rfl rfl rfl rfl rfl rfl rfl) h
      · rw [hdmiReadReg_write_of_ne (by decide), hdmiReadReg_write_of_ne (by decide),
          hdmiReadReg_write_of_ne (by decide)]
        rfl
      · rw [hdmiReadReg_write_of_ne (by decide), hdmiReadReg_write_of_ne (by decide),
          hdmiReadReg_write_of_ne (by decide)]
        rfl
  | isConnected =>
    simp only [hdmiStep, hdmiIsConnected, init, Bool.false_eq_true, if_false]
    exact HdmiSame.sound (.regs s rfl rfl rfl rfl rfl rfl rfl rfl rfl) h
  | isStable =>
    simp only [hdmiStep, hdmiIsStable, init, Bool.false_eq_true, if_false]
    exact HdmiSame.sound (.regs s rfl rfl rfl rfl rfl rfl rfl rfl rfl) h
  | clearInterrupts mask =>
    simp only [hdmiStep, hdmiClearInterrupts, init, Bool.false_eq_true, if_false]
    refine HdmiSame.sound (.regs s ?_ ?_ rfl rfl rfl rfl rfl rfl rfl) h
    · exact hdmiReadReg_write_of_ne (by decide) ..
    · exact hdmiReadReg_write_of_ne (by decide) ..

/-- A call that does not keep its side ends in a state where the two differ. -/
theorem HdmiSound.not_mirrors {s : Hdmi} (h : HdmiSound s) {c : HdmiCall} (hc : ¬ HdmiKeeps s c) :
    ¬ HdmiMirrors (hdmiStep s c) := by
  intro hm
  cases c with
  | reset =>
    have audio := hm.audio
    have hdcp := hm.hdcp
    rw [hdmiStep, ctrl_reset] at audio hdcp
    refine hc ⟨?_, ?_⟩
    · exact Bool.eq_false_iff.mpr fun h => no_bit _ (audio.mp h)
    · exact Bool.eq_false_iff.mpr fun h => no_bit _ (hdcp.mp h)
  | setCustomTiming timing =>
    cases timing with
    | none => exact hc trivial
    | some timing =>
      refine hc fun hvalid => ?_
      have timing := hm.timing
      rw [hdmiStep, hdmiSetCustomTiming_valid h.initialized hvalid] at timing
      exact timing h.standard
  | _ => exact hc trivial

/-! ## Runs -/

theorem hdmiInit_returns (s : Hdmi) (base : BitVec 32) : (hdmiInit s base).2 = 0 := rfl

/-- The call of `hdmi_set_interrupt_mask` returns at once: the mask register keeps what it held. -/
theorem hdmiInit_intrMask (s : Hdmi) (base : BitVec 32) :
    (hdmiInit s base).1.intrMask = hdmiReadReg s.regs base hdmiCoreIntrMask := by
  show hdmiReadReg (hdmiWriteReg (hdmiWriteReg s.regs base _ _) base _ _) base hdmiCoreIntrMask = _
  rw [hdmiReadReg_write_of_ne (by decide), hdmiReadReg_write_of_ne (by decide)]

theorem hdmiInit_ctrl (s : Hdmi) (base : BitVec 32) : (hdmiInit s base).1.ctrl = 0 :=
  hdmiReadReg_write_self ..

theorem hdmiInit_sound {s : Hdmi} {base : BitVec 32}
    (hmask : hdmiReadReg s.regs base hdmiCoreIntrMask = 0) : HdmiSound (hdmiInit s base).1 := by
  refine ⟨⟨?_, ?_, ?_, fun _ => rfl⟩, rfl, HdmiResolution.noConfusion⟩
  · rw [hdmiInit_ctrl]
    exact iff_of_false Bool.noConfusion (no_bit _)
  · rw [hdmiInit_ctrl]
    exact iff_of_false Bool.noConfusion (no_bit _)
  · rw [hdmiInit_intrMask, hmask]
    rfl

/-- After `hdmi_init`, the device structure agrees with the registers in every state of a run
exactly when the mask register held 0 before, every reset comes while audio and HDCP are off, and
every custom timing that is taken is the one of the resolution. -/
theorem hdmi_mirrors_iff (s : Hdmi) (base : BitVec 32) (calls : List HdmiCall) :
    EveryState hdmiStep HdmiMirrors (hdmiInit s base).1 calls ↔
      hdmiReadReg s.regs base hdmiCoreIntrMask = 0 ∧
        EveryStep hdmiStep HdmiKeeps (hdmiInit s base).1 calls := by
  by_cases hmask : hdmiReadReg s.regs base hdmiCoreIntrMask = 0
  · rw [and_iff_right hmask]
    exact everyState_iff (fun _ _ h hc => h.step hc) (fun _ h => h.toHdmiMirrors)
      (fun _ _ h hc => h.not_mirrors hc) (hdmiInit_sound hmask)
  · refine iff_of_false (fun h => ?_) fun h => hmask h.1
    have mask := h.first.mask
    rw [hdmiInit_intrMask] at mask
    exact hmask mask.symm

/-- A device structure before `hdmi_init`. -/
def hdmiBlank : HdmiDevice where
  config :=
    { resolution := .custom
      colorDepth := .bits8
      videoTiming := ⟨0, 0, 0, 0, 0, 0, 0, 0, 0, false, false, false⟩
      audioConfig := ⟨0, 0, 0, false⟩
      audioEnabled := false
      hdcpEnabled := false
      baseAddr := 0 }
  initialized := false
  connected := false
  stable := false
  interruptMask := 0

/-- A mask register that holds 1, a reset with audio on, and a timing of 100 by 100. -/
theorem hdmi_not_mirrors :
    ¬ EveryState hdmiStep HdmiMirrors (hdmiInit ⟨hdmiBlank, fun _ => 1⟩ 0xFE902000).1 [] ∧
    ¬ EveryState hdmiStep HdmiMirrors (hdmiInit ⟨hdmiBlank, fun _ => 0⟩ 0xFE902000).1
        [.enableAudio true, .reset] ∧
    ¬ EveryState hdmiStep HdmiMirrors (hdmiInit ⟨hdmiBlank, fun _ => 0⟩ 0xFE902000).1
        [.setCustomTiming (some ⟨1000000, 100, 1, 1, 1, 100, 1, 1, 1, false, false, false⟩)] := by
  refine ⟨fun h => ?_, fun h => ?_, fun h => ?_⟩
  · exact absurd h.first.mask (by decide)
  · exact absurd h.last.audio (by decide)
  · exact absurd (h.last.timing HdmiResolution.noConfusion) (by decide)

end Unics
