import PdfFunctions.Function

namespace PdfFunctions

structure ColorSpace where
  name : String
  components : Nat
deriving DecidableEq

namespace ColorSpace

def known : List ColorSpace :=
  [⟨"DeviceGray", 1⟩, ⟨"CalRGB", 3⟩, ⟨"CalGray", 1⟩, ⟨"Lab", 3⟩, ⟨"DeviceRGB", 3⟩,
    ⟨"DeviceCMYK", 4⟩, ⟨"Separation", 1⟩, ⟨"Indexed", 1⟩, ⟨"Pattern", 1⟩]

def ofName? (name : String) : Option ColorSpace :=
  known.find? (·.name == name)

end ColorSpace

inductive Color where
  | gray (g : Float)
  | rgb (r g b : Float)
  | cmyk (c m y k : Float)
deriving DecidableEq

namespace Color

/-- Black, in the model that the number of components suggests. -/
def black (space : ColorSpace) : Color :=
  match space.components with
  | 3 => rgb 0 0 0
  | 4 => cmyk 0 0 0 1
  | _ => gray 0

def ofComponents : List Float → Except Error Color
  | [g] => .ok (gray g)
  | [r, g, b] => .ok (rgb r g b)
  | [c, m, y, k] => .ok (cmyk c m y k)
  | xs => .error (.malformed (.componentCount xs.length))

def components : Color → List Float
  | gray g => [g]
  | rgb r g b => [r, g, b]
  | cmyk c m y k => [c, m, y, k]

def model : Color → String
  | gray _ => "gray"
  | rgb .. => "rgb"
  | cmyk .. => "cmyk"

def inSpace (space : ColorSpace) (xs : List Float) : Except Error Color :=
  if xs.length = space.components then ofComponents xs
  else .error (.malformed (.spaceComponents xs.length space.name space.components))

/-- The colour that `x` gives in `space`, or black and the event for the error. -/
def orBlack (space : ColorSpace) (event : Error → Event) (x : EvalM (List Float)) :
    StateM Log Color := fun log =>
  match (do ofExcept (inSpace space (← x)) : EvalM Color) log with
  | .ok c log => (c, log)
  -- what has been reported before the failure stays
  | .error e log => (black space, event e :: log)

end Color

inductive Shading where
  | single (f : Function)
  | perComponent (fs : List Function)

namespace Shading

def component (xs : List Float) (f : Function) : EvalM Float := do
  match ← f.evaluate xs with
  | [y] => return y
  | ys => throw (.malformed (.componentResults ys.length))

def evaluate (s : Shading) (xs : List Float) : EvalM (List Float) :=
  match s with
  | single f => f.evaluate xs
  | perComponent fs => fs.mapM (component xs)

def color (s : Shading) (space : ColorSpace) (xs : List Float) : StateM Log Color :=
  Color.orBlack space (.colorReplaced space.name) (s.evaluate xs)

end Shading

/-- The tint transformation of a colour space that is defined by an alternate one. -/
structure Tint where
  alternate : ColorSpace
  function : Function

def Tint.color (t : Tint) (xs : List Float) : StateM Log Color :=
  Color.orBlack t.alternate (.tintReplaced t.alternate.name) (t.function.evaluate xs)

end PdfFunctions
