import Canboat.Core.Text
import Mathlib.Data.Nat.Notation

/-!
# Device cache

What the user interface remembers of a device from session to session, by the part of its NAME
that tells devices apart.
-/

namespace Canboat.Tui

structure NameKey where
  manufacturerCode : UInt16
  uniqueNumber : UInt32
deriving DecidableEq, Repr

structure CachedInfo where
  manufacturerName : Option String := none
  deviceFunction : Option UInt32 := none
  deviceClass : Option UInt32 := none
  industryGroup : Option UInt32 := none
  productCode : Option UInt32 := none
  modelId : Option String := none
  softwareVersion : Option String := none
  modelVersion : Option String := none
  modelSerialCode : Option String := none
  nmeaDbVersion : Option UInt32 := none
  certificationLevel : Option UInt32 := none
  loadEquivalency : Option UInt32 := none
  installationDescription1 : Option String := none
  installationDescription2 : Option String := none
  manufacturerInformation : Option String := none
  firstSeen : Option String := none
  lastSeen : Option String := none
deriving DecidableEq, Repr

def isBlankText (s : String) : Bool := trim s.toList = []

/-- The newer value, if there is one. -/
def take {α : Type} (dst src : Option α) : Option α := src.or dst

/-- The newer text, unless it is blank. -/
def takeStr (dst src : Option String) : Option String := (src.filter fun s => !isBlankText s).or dst

def CachedInfo.mergeFrom (self other : CachedInfo) : CachedInfo where
  manufacturerName := takeStr self.manufacturerName other.manufacturerName
  deviceFunction := take self.deviceFunction other.deviceFunction
  deviceClass := take self.deviceClass other.deviceClass
  industryGroup := take self.industryGroup other.industryGroup
  productCode := take self.productCode other.productCode
  modelId := takeStr self.modelId other.modelId
  softwareVersion := takeStr self.softwareVersion other.softwareVersion
  modelVersion := takeStr self.modelVersion other.modelVersion
  modelSerialCode := takeStr self.modelSerialCode other.modelSerialCode
  nmeaDbVersion := take self.nmeaDbVersion other.nmeaDbVersion
  certificationLevel := take self.certificationLevel other.certificationLevel
  loadEquivalency := take self.loadEquivalency other.loadEquivalency
  installationDescription1 := takeStr self.installationDescription1 other.installationDescription1
  installationDescription2 := takeStr self.installationDescription2 other.installationDescription2
  manufacturerInformation := takeStr self.manufacturerInformation other.manufacturerInformation
  firstSeen := self.firstSeen.or (other.firstSeen.or other.lastSeen)
  lastSeen := take self.lastSeen other.lastSeen

/-- The fields that hold text of the device. -/
inductive TextField
  | manufacturerName
  | modelId
  | softwareVersion
  | modelVersion
  | modelSerialCode
  | installationDescription1
  | installationDescription2
  | manufacturerInformation
deriving DecidableEq, Repr

def CachedInfo.text (info : CachedInfo) : TextField → Option String
  | .manufacturerName => info.manufacturerName
  | .modelId => info.modelId
  | .softwareVersion => info.softwareVersion
  | .modelVersion => info.modelVersion
  | .modelSerialCode => info.modelSerialCode
  | .installationDescription1 => info.installationDescription1
  | .installationDescription2 => info.installationDescription2
  | .manufacturerInformation => info.manufacturerInformation

theorem CachedInfo.text_mergeFrom (self other : CachedInfo) (field : TextField) :
    (self.mergeFrom other).text field = takeStr (self.text field) (other.text field) := by
  cases field <;> rfl

theorem CachedInfo.text_default (field : TextField) : ({} : CachedInfo).text field = none := by
  cases field <;> rfl

end Canboat.Tui
