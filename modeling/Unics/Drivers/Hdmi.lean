import Mathlib.Logic.Function.Basic

/-!
# The HDMI driver

`usr/drivers/hdmi.c`: a device structure in memory, and the controller's registers at offsets from
a base address. A register is a cell that holds the last value written. Every function refuses a
null device before it does anything; here the device is there.

The delays of the reset and the functions that print are left out.
-/

namespace Unics

/-! ## Registers -/

/-- The registers by address. -/
abbrev HdmiRegs := BitVec 32 → BitVec 32

def hdmiCoreCtrl : BitVec 32 := 0x000
def hdmiCoreStatus : BitVec 32 := 0x004
def hdmiCoreIntrMask : BitVec 32 := 0x008
def hdmiCoreIntrStatus : BitVec 32 := 0x00C
def hdmiCoreVideoCfg : BitVec 32 := 0x010

def hdmiVideoTimingReg : BitVec 32 := 0x020
def hdmiVideoHActive : BitVec 32 := 0x024
def hdmiVideoVActive : BitVec 32 := 0x028
def hdmiVideoHSync : BitVec 32 := 0x02C
def hdmiVideoVSync : BitVec 32 := 0x030
def hdmiVideoHBlank : BitVec 32 := 0x034
def hdmiVideoVBlank : BitVec 32 := 0x038

def hdmiAudioSampleRate : BitVec 32 := 0x040
def hdmiAudioChannels : BitVec 32 := 0x044
def hdmiAudioFormat : BitVec 32 := 0x048

def hdmiCtrlEnable : BitVec 32 := 1 <<< 0
def hdmiCtrlReset : BitVec 32 := 1 <<< 1
def hdmiCtrlAudioEn : BitVec 32 := 1 <<< 2
def hdmiCtrlVideoEn : BitVec 32 := 1 <<< 3
def hdmiCtrlHdcpEn : BitVec 32 := 1 <<< 4

def hdmiStatusConnected : BitVec 32 := 1 <<< 0
def hdmiStatusStable : BitVec 32 := 1 <<< 1

def hdmiReadReg (regs : HdmiRegs) (baseAddr offset : BitVec 32) : BitVec 32 :=
  regs (baseAddr + offset)

def hdmiWriteReg (regs : HdmiRegs) (baseAddr offset value : BitVec 32) : HdmiRegs :=
  Function.update regs (baseAddr + offset) value

def hdmiModifyReg (regs : HdmiRegs) (baseAddr offset mask value : BitVec 32) : HdmiRegs :=
  hdmiWriteReg regs baseAddr offset
    ((hdmiReadReg regs baseAddr offset &&& ~~~mask) ||| (value &&& mask))

/-! ## The device -/

/-- `hdmi_resolution_t`. A number beyond the last is refused wherever `custom` is. -/
inductive HdmiResolution where
  | res640x480
  | res800x600
  | res1024x768
  | res1280x720
  | res1920x1080
  | res3840x2160
  | custom
  deriving DecidableEq, Repr

/-- `hdmi_color_depth_t`. -/
inductive HdmiColorDepth where
  | bits8
  | bits10
  | bits12
  | bits16
  deriving DecidableEq, Repr

structure HdmiVideoTiming where
  pixelClock : BitVec 32
  hActive : BitVec 16
  hBlanking : BitVec 16
  hSyncOffset : BitVec 16
  hSyncWidth : BitVec 16
  vActive : BitVec 16
  vBlanking : BitVec 16
  vSyncOffset : BitVec 16
  vSyncWidth : BitVec 16
  hSyncPolarity : Bool
  vSyncPolarity : Bool
  interlaced : Bool
  deriving DecidableEq, Repr

structure HdmiAudioConfig where
  sampleRate : BitVec 32
  channels : UInt8
  bitDepth : UInt8
  compressed : Bool
  deriving DecidableEq, Repr

structure HdmiConfig where
  resolution : HdmiResolution
  colorDepth : HdmiColorDepth
  videoTiming : HdmiVideoTiming
  audioConfig : HdmiAudioConfig
  audioEnabled : Bool
  hdcpEnabled : Bool
  baseAddr : BitVec 32
  deriving DecidableEq, Repr

structure HdmiDevice where
  config : HdmiConfig
  initialized : Bool
  connected : Bool
  stable : Bool
  interruptMask : BitVec 32
  deriving DecidableEq, Repr

/-- The device structure and the registers. -/
structure Hdmi where
  device : HdmiDevice
  regs : HdmiRegs

/-! ## Timings -/

/-- `standard_timings`, with no entry for `custom`. -/
def standardTimings : HdmiResolution → Option HdmiVideoTiming
  | .res640x480 => some
    { pixelClock := 25175000
      hActive := 640, hBlanking := 160, hSyncOffset := 16, hSyncWidth := 96
      vActive := 480, vBlanking := 45, vSyncOffset := 10, vSyncWidth := 2
      hSyncPolarity := false, vSyncPolarity := false, interlaced := false }
  | .res800x600 => some
    { pixelClock := 40000000
      hActive := 800, hBlanking := 256, hSyncOffset := 40, hSyncWidth := 128
      vActive := 600, vBlanking := 28, vSyncOffset := 1, vSyncWidth := 4
      hSyncPolarity := true, vSyncPolarity := true, interlaced := false }
  | .res1024x768 => some
    { pixelClock := 65000000
      hActive := 1024, hBlanking := 320, hSyncOffset := 24, hSyncWidth := 136
      vActive := 768, vBlanking := 38, vSyncOffset := 3, vSyncWidth := 6
      hSyncPolarity := false, vSyncPolarity := false, interlaced := false }
  | .res1280x720 => some
    { pixelClock := 74250000
      hActive := 1280, hBlanking := 370, hSyncOffset := 110, hSyncWidth := 40
      vActive := 720, vBlanking := 30, vSyncOffset := 5, vSyncWidth := 5
      hSyncPolarity := true, vSyncPolarity := true, interlaced := false }
  | .res1920x1080 => some
    { pixelClock := 148500000
      hActive := 1920, hBlanking := 280, hSyncOffset := 88, hSyncWidth := 44
      vActive := 1080, vBlanking := 45, vSyncOffset := 4, vSyncWidth := 5
      hSyncPolarity := true, vSyncPolarity := true, interlaced := false }
  | .res3840x2160 => some
    { pixelClock := 297000000
      hActive := 3840, hBlanking := 560, hSyncOffset := 176, hSyncWidth := 88
      vActive := 2160, vBlanking := 90, vSyncOffset := 8, vSyncWidth := 10
      hSyncPolarity := true, vSyncPolarity := true, interlaced := false }
  | .custom => none

/-- `hdmi_validate_timing`, of a timing that is there. -/
def hdmiValidateTiming (timing : HdmiVideoTiming) : Int :=
  if timing.hActive = 0 ∨ timing.vActive = 0 then -1
  else if timing.hSyncWidth = 0 ∨ timing.vSyncWidth = 0 then -1
  else if timing.pixelClock < 1000000 then -1
  else 0

/-! ## Functions -/

def hdmiReset (s : Hdmi) : Hdmi × Int :=
  let base := s.device.config.baseAddr
  let regs := hdmiWriteReg s.regs base hdmiCoreCtrl hdmiCtrlReset
  ({ s with regs := hdmiWriteReg regs base hdmiCoreCtrl 0 }, 0)

def hdmiSetInterruptMask (s : Hdmi) (mask : BitVec 32) : Hdmi × Int :=
  if !s.device.initialized then (s, -1)
  else
    ({ device := { s.device with interruptMask := mask }
       regs := hdmiWriteReg s.regs s.device.config.baseAddr hdmiCoreIntrMask mask }, 0)

/-- The device as `hdmi_init` fills it in first. -/
def hdmiInitDevice (device : HdmiDevice) (baseAddr : BitVec 32) : HdmiDevice where
  config := { device.config with
    baseAddr
    resolution := .res1920x1080
    colorDepth := .bits8
    audioEnabled := false
    hdcpEnabled := false }
  initialized := false
  connected := false
  stable := false
  interruptMask := 0

/-- The defaults that `hdmi_init` stores after the reset. -/
def hdmiInitDefaults (config : HdmiConfig) : HdmiConfig :=
  { config with
    videoTiming := (standardTimings .res1920x1080).getD config.videoTiming
    audioConfig := { sampleRate := 48000, channels := 2, bitDepth := 16, compressed := false } }

def hdmiInit (s : Hdmi) (baseAddr : BitVec 32) : Hdmi × Int :=
  let (s, code) := hdmiReset { s with device := hdmiInitDevice s.device baseAddr }
  if code ≠ 0 then (s, -1)
  else
    let s := { s with device := { s.device with config := hdmiInitDefaults s.device.config } }
    -- the device is not initialized yet, and the answer is not looked at
    let (s, _) := hdmiSetInterruptMask s 0xFFFFFFFF
    ({ s with device := { s.device with initialized := true } }, 0)

/-- The registers of a timing. -/
def hdmiTimingRegs (regs : HdmiRegs) (base : BitVec 32) (timing : HdmiVideoTiming) : HdmiRegs :=
  let regs := hdmiWriteReg regs base hdmiVideoHActive (timing.hActive.setWidth 32)
  let regs := hdmiWriteReg regs base hdmiVideoVActive (timing.vActive.setWidth 32)
  let regs := hdmiWriteReg regs base hdmiVideoHSync
    ((timing.hSyncOffset.setWidth 32 <<< 16) ||| timing.hSyncWidth.setWidth 32)
  let regs := hdmiWriteReg regs base hdmiVideoVSync
    ((timing.vSyncOffset.setWidth 32 <<< 16) ||| timing.vSyncWidth.setWidth 32)
  let regs := hdmiWriteReg regs base hdmiVideoHBlank (timing.hBlanking.setWidth 32)
  let regs := hdmiWriteReg regs base hdmiVideoVBlank (timing.vBlanking.setWidth 32)
  let timingReg : BitVec 32 := 0
  let timingReg := if timing.hSyncPolarity then timingReg ||| 1 <<< 0 else timingReg
  let timingReg := if timing.vSyncPolarity then timingReg ||| 1 <<< 1 else timingReg
  let timingReg := if timing.interlaced then timingReg ||| 1 <<< 2 else timingReg
  hdmiWriteReg regs base hdmiVideoTimingReg timingReg

def hdmiSetCustomTiming (s : Hdmi) : Option HdmiVideoTiming → Hdmi × Int
  | none => (s, -1)
  | some timing =>
    if !s.device.initialized then (s, -1)
    else if hdmiValidateTiming timing ≠ 0 then (s, -1)
    else
      -- the resolution stays what it was
      ({ device := { s.device with config := { s.device.config with videoTiming := timing } }
         regs := hdmiTimingRegs s.regs s.device.config.baseAddr timing }, 0)

def hdmiSetResolution (s : Hdmi) (resolution : HdmiResolution) : Hdmi × Int :=
  match s.device.initialized, standardTimings resolution with
  | true, some timing =>
    let s := { s with device := { s.device with config := { s.device.config with
      resolution, videoTiming := timing } } }
    hdmiSetCustomTiming s (some s.device.config.videoTiming)
  | _, _ => (s, -1)

/-- What the four functions that turn a bit of the control register on or off have in common. -/
def hdmiCtrlBit (s : Hdmi) (bit : BitVec 32) (enable : Bool) : HdmiRegs :=
  hdmiModifyReg s.regs s.device.config.baseAddr hdmiCoreCtrl bit (if enable then bit else 0)

def hdmiEnable (s : Hdmi) (enable : Bool) : Hdmi × Int :=
  if !s.device.initialized then (s, -1)
  else ({ s with regs := hdmiCtrlBit s hdmiCtrlEnable enable }, 0)

def hdmiEnableVideo (s : Hdmi) (enable : Bool) : Hdmi × Int :=
  if !s.device.initialized then (s, -1)
  else ({ s with regs := hdmiCtrlBit s hdmiCtrlVideoEn enable }, 0)

def hdmiEnableAudio (s : Hdmi) (enable : Bool) : Hdmi × Int :=
  if !s.device.initialized then (s, -1)
  else
    ({ device := { s.device with config := { s.device.config with audioEnabled := enable } }
       regs := hdmiCtrlBit s hdmiCtrlAudioEn enable }, 0)

def hdmiEnableHdcp (s : Hdmi) (enable : Bool) : Hdmi × Int :=
  if !s.device.initialized then (s, -1)
  else
    ({ device := { s.device with config := { s.device.config with hdcpEnabled := enable } }
       regs := hdmiCtrlBit s hdmiCtrlHdcpEn enable }, 0)

/-- The bits of a color depth in the video configuration register. -/
def HdmiColorDepth.bits : HdmiColorDepth → BitVec 32
  | .bits8 => 0
  | .bits10 => 1
  | .bits12 => 2
  | .bits16 => 3

def hdmiSetColorDepth (s : Hdmi) (depth : HdmiColorDepth) : Hdmi × Int :=
  if !s.device.initialized then (s, -1)
  else
    ({ device := { s.device with config := { s.device.config with colorDepth := depth } }
       regs := hdmiModifyReg s.regs s.device.config.baseAddr hdmiCoreVideoCfg (3 <<< 4)
         (depth.bits <<< 4) }, 0)

def hdmiSetAudioConfig (s : Hdmi) : Option HdmiAudioConfig → Hdmi × Int
  | none => (s, -1)
  | some config =>
    if !s.device.initialized then (s, -1)
    else
      let base := s.device.config.baseAddr
      let regs := hdmiWriteReg s.regs base hdmiAudioSampleRate config.sampleRate
      let regs := hdmiWriteReg regs base hdmiAudioChannels (config.channels.toBitVec.setWidth 32)
      let format :=
        config.bitDepth.toBitVec.setWidth 32 ||| if config.compressed then 1 <<< 8 else 0
      ({ device := { s.device with config := { s.device.config with audioConfig := config } }
         regs := hdmiWriteReg regs base hdmiAudioFormat format }, 0)

def hdmiIsConnected (s : Hdmi) : Hdmi × Bool :=
  if !s.device.initialized then (s, false)
  else
    let status := hdmiReadReg s.regs s.device.config.baseAddr hdmiCoreStatus
    let connected := status &&& hdmiStatusConnected != 0
    ({ s with device := { s.device with connected } }, connected)

def hdmiIsStable (s : Hdmi) : Hdmi × Bool :=
  if !s.device.initialized then (s, false)
  else
    let status := hdmiReadReg s.regs s.device.config.baseAddr hdmiCoreStatus
    let stable := status &&& hdmiStatusStable != 0
    ({ s with device := { s.device with stable } }, stable)

def hdmiClearInterrupts (s : Hdmi) (mask : BitVec 32) : Hdmi :=
  if !s.device.initialized then s
  else { s with regs := hdmiWriteReg s.regs s.device.config.baseAddr hdmiCoreIntrStatus mask }

def hdmiDeinit (s : Hdmi) : Hdmi :=
  if !s.device.initialized then s
  else
    let (s, _) := hdmiEnable s false
    let (s, _) := hdmiReset s
    let (s, _) := hdmiSetInterruptMask s 0
    { s with device := { s.device with initialized := false } }

end Unics
