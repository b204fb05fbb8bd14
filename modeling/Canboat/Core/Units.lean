import Canboat.Core.Float64

/-!
# Conversions between units
-/

namespace Canboat

variable {F : Type} [Float64 F]

/-- `180.0 / std::f64::consts::PI`. -/
def radToDeg : F := Float64.div (Float64.ofInt 180) (Float64.ofRat (3141592653589793 / 1000000000000000))

/-- `none` for units that nothing relates. -/
def convertUnit (v : F) (source target : String) : Option F :=
  if source = target then some v
  else if source = "rad" ∧ target = "deg" then some (Float64.mul v radToDeg)
  else if source = "deg" ∧ target = "rad" then some (Float64.div v radToDeg)
  else if source = "rad/s" ∧ target = "deg/s" then some (Float64.mul v radToDeg)
  else if source = "deg/s" ∧ target = "rad/s" then some (Float64.div v radToDeg)
  else if source = "K" ∧ target = "C" then some (Float64.sub v (Float64.ofRat (27315 / 100)))
  else if source = "C" ∧ target = "K" then some (Float64.add v (Float64.ofRat (27315 / 100)))
  else if source = "Pa" ∧ target = "bar" then some (Float64.div v (Float64.ofInt 100000))
  else if source = "bar" ∧ target = "Pa" then some (Float64.mul v (Float64.ofInt 100000))
  else if source = "C" ∧ target = "Ah" then some (Float64.div v (Float64.ofInt 3600))
  else if source = "Ah" ∧ target = "C" then some (Float64.mul v (Float64.ofInt 3600))
  else none

end Canboat
