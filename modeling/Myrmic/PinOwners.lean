import Mathlib.Data.List.Nodup
import Mathlib.Data.List.Lookmap

/-!
# Owners of pins

A board's manifest says which GPIO every role of a bus and every named pin of a device has, and
which GPIOs are left to cells.  Two validators go over it before any code is generated.  The pins of
buses are compared with each other and with those of cells, and so are the pins of devices; no pass
compares buses with devices.  A manifest without errors gives every pin one owner **exactly if no
device has a pin of a bus** (`one_owner_iff`).
-/
namespace Myrmic
open List
namespace SignalLayer

/-- The kinds of buses. -/
inductive BusTransport where
  | i2c
  | spi
  deriving DecidableEq

/-- A bus of a board, with a pin for each of its lines. -/
structure BusConfig where
  transport : BusTransport
  pins : List (String × UInt8)
  freqKhz : UInt32
  mode : UInt8

/-- A device of a board; the name of its bus may be empty. -/
structure DeviceEntry where
  id : String
  driver : String
  bus : String
  pins : List (String × UInt8)

/-- What a board is made of. -/
structure BoardManifest where
  chip : String
  buses : List (String × BusConfig)
  generalPurpose : List UInt8
  devices : List DeviceEntry

/-! ## Claims of pins -/

/-- The pins that are taken, in the order of their first claims, and by whom. -/
abbrev PinMap := List (UInt8 × String)

/-- The owner of a pin is replaced. -/
def PinMap.insert (pins : PinMap) (pin : UInt8) (owner : String) : PinMap :=
  if pin ∈ pins.map Prod.fst then pins.map fun p => if p.1 = pin then (pin, owner) else p
  else pins ++ [(pin, owner)]

/-- Enters claims one after another and reports those of pins that are taken. -/
def claimAll (clash : UInt8 → String → String → String) :
    List (String × UInt8) → PinMap → List String × PinMap
  | [], pins => ([], pins)
  | (owner, pin) :: claims, pins =>
    let rest := claimAll clash claims (pins.insert pin owner)
    (((pins.lookup pin).map fun prev => clash pin prev owner).toList ++ rest.1, rest.2)

/-- The lines of a bus or a device, by their full names. -/
def claimsOf (id : String) (pins : List (String × UInt8)) : List (String × UInt8) :=
  pins.map fun p => (id ++ "." ++ p.1, p.2)

/-- One message if there is a fault. -/
def report (fault : Bool) (message : String) : List String := if fault then [message] else []

/-! ## The manifest of any board -/

def busClash (pin : UInt8) (prev owner : String) : String :=
  s!"pin {pin} assigned to both `{prev}` and `{owner}`"

def BusConfig.faults (bus : BusConfig) (id : String) : List String :=
  report (bus.freqKhz = 0) s!"bus `{id}`: freq_khz must be > 0" ++
    report (bus.transport = .spi ∧ bus.mode > 3)
      s!"bus `{id}`: SPI mode must be 0–3, got {bus.mode}"

/-- Claims the pins of all buses, in the order of the manifest. -/
def checkBuses : List (String × BusConfig) → PinMap → List String × PinMap
  | [], pins => ([], pins)
  | (id, bus) :: buses, pins =>
    let claimed := claimAll busClash (claimsOf id bus.pins) pins
    let rest := checkBuses buses claimed.2
    (claimed.1 ++ bus.faults id ++ rest.1, rest.2)

def DeviceEntry.faults (m : BoardManifest) (d : DeviceEntry) : List String :=
  report (d.bus ≠ "" ∧ (m.buses.lookup d.bus).isNone)
      s!"device `{d.id}`: references unknown bus `{d.bus}`" ++
    (d.pins.flatMap fun p => report (p.2 ∈ m.generalPurpose) (s!"device `{d.id}`: pin `{p.1}` = " ++
      s!"GPIO{p.2} is claimed by the device but also listed in gpios.general_purpose")) ++
    report ((m.buses.lookup d.bus).any (·.transport = .spi) ∧ (d.pins.lookup "cs").isNone)
      s!"device `{d.id}`: SPI device must declare a `cs` pin"

def deviceClash (pin : UInt8) (prev owner : String) : String :=
  s!"GPIO{pin} is claimed by both `{prev}` and `{owner}`"

/-- One message for every id that has come before. -/
def duplicateIds : List String → List DeviceEntry → List String
  | _, [] => []
  | seen, d :: devices =>
    report (d.id ∈ seen) s!"duplicate device id `{d.id}`" ++ duplicateIds (d.id :: seen) devices

/-- The errors of a manifest.  `ident` is what is wrong with an identifier, if anything. -/
def validateManifest (ident : String → Option String) (m : BoardManifest) : List String :=
  (m.buses.flatMap fun b => (ident b.1).toList.map ("bus id " ++ ·)) ++
    (m.devices.flatMap fun d => (ident d.id).toList.map ("device id " ++ ·) ++
      (ident d.driver).toList.map fun e => s!"device `{d.id}`: driver {e}") ++
    (checkBuses m.buses []).1 ++
    ((checkBuses m.buses []).2.flatMap fun p => report (p.1 ∈ m.generalPurpose)
      s!"pin {p.1} is used as bus pin `{p.2}` but also listed in gpios.general_purpose") ++
    m.devices.flatMap (DeviceEntry.faults m) ++
    (claimAll deviceClash (m.devices.flatMap fun d => claimsOf d.id d.pins) []).1 ++
    duplicateIds [] m.devices

/-! ## The chips -/

namespace Esp32Backend

/-- The chips: how many slots each has, and which of them are usable. -/
def chipLayouts : List (String × Nat × List UInt8) :=
  [("esp32c5", 25, [0, 1, 6, 8, 9, 10, 23, 24]),
    ("esp32c6", 28, [0, 1, 2, 3, 10, 11, 14, 18, 19, 20, 21, 22, 23, 27]),
    ("esp32c61", 30, [0, 1, 2, 22, 23, 24, 25, 26, 27, 28, 29])]

/-- The slots of a chip; the index of a slot is the number of its GPIO. -/
def chipPinLayout (chip : String) : Option (List (Option UInt8)) :=
  (chipLayouts.lookup chip).map fun (slots, usable) =>
    (range slots).map fun pin => if .ofNat pin ∈ usable then some (.ofNat pin) else none

def busFaults (id : String) (bus : BusConfig) : List String :=
  match bus.transport with
  | .i2c => report (id ≠ "i2c0" ∧ id ≠ "i2c1")
      s!"bus `{id}`: ESP32 exposes I2C0 and I2C1 only; use id `i2c0` or `i2c1`"
  | .spi => report (id ≠ "spi2" ∧ id ≠ "spi3")
        s!"bus `{id}`: ESP32 user SPI buses are SPI2 and SPI3; use id `spi2` or `spi3`" ++
      ["sclk", "mosi"].flatMap fun required => report (bus.pins.lookup required).isNone
        s!"bus `{id}`: SPI bus must declare a `{required}` pin"

def validateManifest (m : BoardManifest) : List String :=
  (m.buses.flatMap fun b => busFaults b.1 b.2) ++
    match chipPinLayout m.chip with
    | none => [s!"chip `{m.chip}` has no pin layout in the ESP backend; supported chips are " ++
        ", ".intercalate (chipLayouts.map Prod.fst)]
    | some layout => m.generalPurpose.flatMap fun pin => report (some pin ∉ layout)
        (s!"gpios.general_purpose: GPIO{pin} is not in the {m.chip} package layout " ++
          "(reserved by hardware: flash / USB / strapping / JTAG, or not broken out)")

end Esp32Backend

def BoardManifest.busPins (m : BoardManifest) : List UInt8 :=
  m.buses.flatMap fun b => b.2.pins.map Prod.snd

def BoardManifest.devicePins (m : BoardManifest) : List UInt8 :=
  m.devices.flatMap fun d => d.pins.map Prod.snd

/-- The pins that are handed to cells. -/
def Esp32Backend.pipelinePins (m : BoardManifest) : Option (List (Option UInt8)) :=
  (chipPinLayout m.chip).map fun layout => layout.map fun slot => slot.filter fun pin =>
    pin ∉ m.busPins ++ m.devicePins ∧ pin ∈ m.generalPurpose

/-- **Every pin has one owner**: a role of a bus, a pin of a device, or the cells. -/
def OneOwner (m : BoardManifest) : Prop :=
  (m.busPins ++ m.devicePins).Nodup ∧
    (∀ pin ∈ m.busPins ++ m.devicePins, pin ∉ m.generalPurpose) ∧
    ∀ slots ∈ Esp32Backend.pipelinePins m, ∀ pin ∈ m.busPins ++ m.devicePins, some pin ∉ slots

variable {clash : UInt8 → String → String → String} {claims more : List (String × UInt8)}
  {pins : PinMap} {pin : UInt8} {owner : String} {m : BoardManifest}

/-! ## What the passes find -/

theorem PinMap.mem_insert {p : UInt8} : p ∈ (pins.insert pin owner).map Prod.fst ↔
    p = pin ∨ p ∈ pins.map Prod.fst := by
  unfold PinMap.insert
  split
  · next hm =>
    have hk : (pins.map fun p => if p.1 = pin then (pin, owner) else p).map Prod.fst =
        pins.map Prod.fst := by
      rw [map_map]
      refine map_congr_left fun p _ => ?_
      by_cases hp : p.1 = pin <;> simp [hp]
    rw [hk, or_iff_right_of_imp]
    rintro rfl
    exact hm
  · rw [map_append, mem_append, or_comm]
    simp

theorem claimAll_append : claimAll clash (claims ++ more) pins =
    ((claimAll clash claims pins).1 ++ (claimAll clash more (claimAll clash claims pins).2).1,
      (claimAll clash more (claimAll clash claims pins).2).2) := by
  induction claims generalizing pins with
  | nil => rfl
  | cons claim claims ih => simp [claimAll, ih]

theorem mem_claimAll : pin ∈ (claimAll clash claims pins).2.map Prod.fst ↔
    pin ∈ claims.map Prod.snd ∨ pin ∈ pins.map Prod.fst := by
  induction claims generalizing pins with
  | nil => simp [claimAll]
  | cons claim claims ih =>
    simp only [claimAll, ih, PinMap.mem_insert, map_cons, mem_cons]
    tauto

/-- Without a report, no pin was claimed twice and none was taken before. -/
theorem nodup_of_claimAll (h : (claimAll clash claims pins).1 = []) :
    (claims.map Prod.snd).Nodup ∧ ∀ pin ∈ claims.map Prod.snd, pin ∉ pins.map Prod.fst := by
  induction claims generalizing pins with
  | nil => exact ⟨nodup_nil, nofun⟩
  | cons claim claims ih =>
    obtain ⟨owner, pin⟩ := claim
    obtain ⟨hp, hr⟩ := append_eq_nil_iff.mp h
    obtain ⟨hn, hf⟩ := ih hr
    have hl : pin ∉ pins.map Prod.fst := by
      intro hm
      obtain ⟨p, hpm, rfl⟩ := mem_map.mp hm
      have hno : ∀ a b, (a, b) ∈ pins → ¬p.1 = a := by simpa using hp
      exact hno p.1 p.2 hpm rfl
    refine ⟨nodup_cons.mpr ⟨fun hm => hf pin hm (PinMap.mem_insert.mpr (.inl rfl)), hn⟩,
      forall_mem_cons.mpr ⟨hl, fun p hm hp => hf p hm (PinMap.mem_insert.mpr (.inr hp))⟩⟩

/-- The pass over the buses enters the claims of all of them. -/
theorem checkBuses_eq {buses : List (String × BusConfig)} :
    (checkBuses buses pins).2 =
        (claimAll busClash (buses.flatMap fun b => claimsOf b.1 b.2.pins) pins).2 ∧
      ((checkBuses buses pins).1 = [] →
        (claimAll busClash (buses.flatMap fun b => claimsOf b.1 b.2.pins) pins).1 = []) := by
  induction buses generalizing pins with
  | nil => exact ⟨rfl, fun _ => rfl⟩
  | cons b buses ih =>
    rw [flatMap_cons, claimAll_append]
    refine ⟨ih.1, fun h => ?_⟩
    obtain ⟨hc, hr⟩ := append_eq_nil_iff.mp h
    exact append_eq_nil_iff.mpr ⟨(append_eq_nil_iff.mp hc).1, ih.2 hr⟩

theorem pins_claimsOf {α : Type} (l : List α) (id : α → String) (pins : α → List (String × UInt8)) :
    (l.flatMap fun a => claimsOf (id a) (pins a)).map Prod.snd =
      l.flatMap fun a => (pins a).map Prod.snd := by
  simp [map_flatMap, claimsOf, Function.comp_def]

/-- What a manifest without errors has, each kind of owner by itself. -/
theorem apart_of_valid {ident : String → Option String} (h : validateManifest ident m = []) :
    m.busPins.Nodup ∧ m.devicePins.Nodup ∧
      ∀ pin ∈ m.busPins ++ m.devicePins, pin ∉ m.generalPurpose := by
  simp only [validateManifest, append_eq_nil_iff] at h
  obtain ⟨⟨⟨⟨⟨⟨-, -⟩, hb⟩, hg⟩, hd⟩, hc⟩, -⟩ := h
  have hbus := nodup_of_claimAll (checkBuses_eq.2 hb)
  have hdev := nodup_of_claimAll hc
  rw [pins_claimsOf] at hbus hdev
  refine ⟨hbus.1, hdev.1, forall_mem_append.mpr ⟨fun pin hp => ?_, fun pin hp => ?_⟩⟩
  · have hm : pin ∈ (checkBuses m.buses []).2.map Prod.fst := by
      rw [checkBuses_eq.1, mem_claimAll, pins_claimsOf]
      exact .inl hp
    obtain ⟨p, hpm, rfl⟩ := mem_map.mp hm
    simpa [report] using flatMap_eq_nil_iff.mp hg p hpm
  · obtain ⟨d, hm, hp⟩ := mem_flatMap.mp hp
    obtain ⟨p, hpd, rfl⟩ := mem_map.mp hp
    have hf := (append_eq_nil_iff.mp (append_eq_nil_iff.mp (flatMap_eq_nil_iff.mp hd d hm)).1).2
    simpa [report] using flatMap_eq_nil_iff.mp hf p hpd

theorem one_owner_iff {ident : String → Option String} (h : validateManifest ident m = [])
    (_he : Esp32Backend.validateManifest m = []) :
    OneOwner m ↔ ∀ pin ∈ m.busPins, pin ∉ m.devicePins := by
  obtain ⟨hb, hd, hg⟩ := apart_of_valid h
  constructor
  · intro ho pin hp hd
    exact disjoint_of_nodup_append ho.1 hp hd
  · intro hne
    refine ⟨nodup_append.mpr ⟨hb, hd, fun p hp q hq => ?_⟩, hg, fun slots hs pin hp hm => ?_⟩
    · rintro rfl
      exact hne p hp hq
    · obtain ⟨layout, -, rfl⟩ := Option.map_eq_some_iff.mp hs
      obtain ⟨slot, -, hsl⟩ := mem_map.mp hm
      exact (of_decide_eq_true (Option.filter_eq_some_iff.mp hsl).2).1 hp

/-- A board with one converter on an SPI bus. -/
def converterBoard (cs : UInt8) : BoardManifest where
  chip := "esp32c6"
  buses := [("spi2", ⟨.spi, [("sclk", 0), ("mosi", 1)], 1000, 0⟩)]
  generalPurpose := [10]
  devices := [⟨"adc", "ads", "spi2", [("cs", cs)]⟩]

theorem one_owner_converterBoard : OneOwner (converterBoard 2) :=
  (@one_owner_iff (converterBoard 2) (fun _ => none) (by decide) (by decide)).mpr
    (by simp [BoardManifest.busPins, BoardManifest.devicePins, converterBoard])

/-- The bus and the device on it may both have GPIO1. -/
theorem bus_pin_claimed_by_device :
    validateManifest (fun _ => none) (converterBoard 1) = [] ∧
      Esp32Backend.validateManifest (converterBoard 1) = [] ∧ ¬OneOwner (converterBoard 1) := by
  refine ⟨by decide, by decide, fun h => ?_⟩
  exact disjoint_of_nodup_append h.1 (a := 1) (by decide) (by decide)

end SignalLayer
end Myrmic
