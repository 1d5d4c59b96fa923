import Sketch.Number.Decimal

/-! Drawing: the calls that build, fill and stroke a path, and the two inks they use. -/
namespace Sketch

inductive Ink where
  | fill | stroke
  deriving DecidableEq, Repr

/-- Calls on a canvas. Filling and stroking carry the colour they are done with. -/
inductive DrawCall where
  | beginPath
  | moveTo (x y : Float)
  | lineTo (x y : Float)
  | rect (x y w h : Float)
  | arc (x y radius startAngle endAngle : Float) (counterclockwise : Bool)
  | closePath
  | apply (ink : Ink) (colour : Bytes)

/-- The colour that leaves out a fill or a stroke. -/
def noColour : Bytes := bytes "none"

structure Canvas where
  fill : Bytes := bytes "#000000"
  stroke : Bytes := bytes "#000000"

namespace Canvas

def colour (canvas : Canvas) : Ink → Bytes
  | .fill => canvas.fill
  | .stroke => canvas.stroke

def setColour (canvas : Canvas) (ink : Ink) (colour : Bytes) : Canvas :=
  match ink with
  | .fill => { canvas with fill := colour }
  | .stroke => { canvas with stroke := colour }

/-- The call that uses an ink on the current path, if its colour leaves anything to see. -/
def inked (canvas : Canvas) (ink : Ink) : List DrawCall :=
  if canvas.colour ink = noColour then [] else [.apply ink (canvas.colour ink)]

/-- A rectangle is filled and then stroked. -/
def rect (canvas : Canvas) (x y w h : Float) : List DrawCall :=
  [.beginPath, .rect x y w h] ++ canvas.inked .fill ++ canvas.inked .stroke

/-- A line is stroked, never filled. -/
def line (canvas : Canvas) (x₁ y₁ x₂ y₂ : Float) : List DrawCall :=
  [.beginPath, .moveTo x₁ y₁, .lineTo x₂ y₂] ++ canvas.inked .stroke

end Canvas

def Ink.name : Ink → Bytes
  | .fill => bytes "fill"
  | .stroke => bytes "stroke"

/-- The numbers of a call, each behind a blank and with six significant digits. -/
def coordinates (numbers : List Float) : Bytes :=
  numbers.flatMap fun x => blank :: significant 6 x

def DrawCall.text : DrawCall → Bytes
  | .beginPath => bytes "beginPath"
  | .moveTo x y => bytes "moveTo" ++ coordinates [x, y]
  | .lineTo x y => bytes "lineTo" ++ coordinates [x, y]
  | .rect x y w h => bytes "rect" ++ coordinates [x, y, w, h]
  | .arc x y radius startAngle endAngle counterclockwise =>
    bytes "arc" ++ coordinates [x, y, radius, startAngle, endAngle]
      ++ bytes (if counterclockwise then " ccw" else "")
  | .closePath => bytes "closePath"
  | .apply ink colour => ink.name ++ blank :: untilNul colour

def DrawCall.line (call : DrawCall) : Bytes := bytes "[ draw] " ++ call.text ++ [newline]

end Sketch
