import FractalShader.Binary.Rounding
import FractalShader.Catalog.Kind

/-
  This file defines the built-in kinds of nodes.

  The state of the iteration is a vector whose first three
  components are the point and whose last is the running
  derivative.  The output variable of a node starts as a
  copy of input A, and the statements change it in place.

  Key definitions include:
    * `BuiltIn.kinds`
    * `Catalog.builtIn`
-/

namespace FractalShader

namespace BuiltIn

------------------------------------------------------------
-- Inputs
------------------------------------------------------------

/- A number given in hundredths. -/
def hundredths (n : Int) : F32 :=
  .ofRatio n 100

/- A range with ends given in hundredths. -/
def between (least greatest : Int) : Interval :=
  ⟨hundredths least, hundredths greatest⟩

/-
  An input without limits.  The ends of its range, its step
  and its initial value are given in hundredths.
-/
def input
    (id label : String)
    (least greatest step initial : Int) : Input where
  id := id
  label := label
  range := between least greatest
  step := hundredths step
  initial := hundredths initial
  limits := none

/- The same input with limits. -/
def limited
    (limits : Interval)
    (input : Input) : Input :=
  { input with limits := some limits }

/- Limits that keep a radius above zero. -/
def radius (greatest : Int) : Interval :=
  ⟨.ofRatio 1 1000, .ofInt greatest⟩

------------------------------------------------------------
-- Templates
------------------------------------------------------------

/- A template made of lines. -/
def lines (template : List (List Piece)) : Template :=
  template.flatMap (fun line => line ++ [.text "\n"])

/- The output variable. -/
abbrev o : Piece := .output

/- The second input variable. -/
abbrev b : Piece := .inputB

/- A parameter. -/
abbrev p (input : String) : Piece := .param input

/- Clamp the point to a box and reflect what was cut off. -/
def boxFold : Template := lines
  [ [ o, ".xyz = clamp(", o, ".xyz, -", p "limit", ", "
    , p "limit", ") * 2.0 - ", o, ".xyz;" ] ]

/- Scale up inside the inner sphere, invert up to the outer. -/
def sphereFold : Template := lines
  [ [ "\x7b" ]
  , [ "    float r2 = dot(", o, ".xyz, ", o, ".xyz);" ]
  , [ "    float mr2 = ", p "min_radius", " * "
    , p "min_radius", ";" ]
  , [ "    float fr2 = ", p "fixed_radius", " * "
    , p "fixed_radius", ";" ]
  , [ "    if (r2 < mr2) \x7b ", o
    , " *= fr2 / mr2; \x7d" ]
  , [ "    else if (r2 < fr2) \x7b ", o
    , " *= fr2 / r2; \x7d" ]
  , [ "\x7d" ] ]

/- Mirror every axis and move. -/
def absFold : Template := lines
  [ [ o, ".xyz = abs(", o, ".xyz) - vec3(", p "offset_x"
    , ", ", p "offset_y", ", ", p "offset_z", ");" ] ]

/- Mirror every axis and sort the components. -/
def mengerFold : Template := lines
  [ [ o, ".xyz = abs(", o, ".xyz);" ]
  , [ "if (", o, ".x < ", o, ".y) ", o, ".xy = ", o, ".yx;" ]
  , [ "if (", o, ".x < ", o, ".z) ", o, ".xz = ", o, ".zx;" ]
  , [ "if (", o, ".y < ", o, ".z) ", o, ".yz = ", o
    , ".zy;" ] ]

/- Turn about the three axes in order. -/
def rotate : Template := lines
  [ [ "\x7b" ]
  , [ "    vec3 a = radians(vec3(", p "angle_x", ", "
    , p "angle_y", ", ", p "angle_z", "));" ]
  , [ "    float c = cos(a.x); float s = sin(a.x);" ]
  , [ "    ", o, ".yz = mat2(c, -s, s, c) * ", o, ".yz;" ]
  , [ "    c = cos(a.y); s = sin(a.y);" ]
  , [ "    ", o, ".xz = mat2(c, -s, s, c) * ", o, ".xz;" ]
  , [ "    c = cos(a.z); s = sin(a.z);" ]
  , [ "    ", o, ".xy = mat2(c, -s, s, c) * ", o, ".xy;" ]
  , [ "\x7d" ] ]

/- Scale the point and its derivative. -/
def scale : Template := lines
  [ [ o, ".xyz *= ", p "scale", ";" ]
  , [ o, ".w *= abs(", p "scale", ");" ] ]

/- Move the point. -/
def translate : Template := lines
  [ [ o, ".xyz += vec3(", p "x", ", ", p "y", ", ", p "z"
    , ");" ] ]

/- Raise the point to a power in spherical coordinates. -/
def mandelbulb : Template := lines
  [ [ "\x7b" ]
  , [ "    float r = length(", o, ".xyz);" ]
  , [ "    float theta = acos(clamp(", o
    , ".z / max(r, 1e-6), -1.0, 1.0)) * ", p "power", ";" ]
  , [ "    float phi = atan(", o, ".y, ", o, ".x) * "
    , p "power", ";" ]
  , [ "    ", o, ".w = pow(r, ", p "power", " - 1.0) * "
    , p "power", " * ", o, ".w + 1.0;" ]
  , [ "    ", o, ".xyz = pow(r, ", p "power"
    , ") * vec3(sin(theta) * cos(phi), "
    , "sin(phi) * sin(theta), cos(theta));" ]
  , [ "\x7d" ] ]

/- Scale about a corner, and lift what fell below it. -/
def mengerScale : Template := lines
  [ [ o, ".xyz = ", o, ".xyz * ", p "scale", " - vec3("
    , p "offset", ") * (", p "scale", " - 1.0);" ]
  , [ "if (", o, ".z < -0.5 * ", p "offset", " * ("
    , p "scale", " - 1.0)) ", o, ".z += ", p "offset"
    , " * (", p "scale", " - 1.0);" ]
  , [ o, ".w *= ", p "scale", ";" ] ]

/- The distance estimate of a state. -/
def estimate (state : Piece) : List Piece :=
  [ "length(", state, ".xyz) / max(", state, ".w, 1e-6)" ]

/- Take the second branch when its estimate compares so. -/
def choose (comparison : String) : Template := lines
  [ [ .text "if (" ] ++ estimate b ++
      [ .text " ", .text comparison, .text " " ] ++
      estimate o ++
      [ .text ") ", o, .text " = ", b, .text ";" ] ]

/- Mix the branches. -/
def blend : Template := lines
  [ [ o, " = mix(", .inputA, ", ", b, ", ", p "mix", ");" ] ]

------------------------------------------------------------
-- Folds
------------------------------------------------------------

/- Kinds that fold space onto a part of itself. -/
def folds : List Kind :=
  [ { id := "box_fold"
      name := "Box Fold"
      description :=
        "Reflects the point back inside an axis-aligned box."
      category := "Folds"
      arity := .single
      inputs :=
        [ limited (between 0 1600)
            (input "limit" "Limit" 0 400 1 100) ]
      body := boxFold.render }
  , { id := "sphere_fold"
      name := "Sphere Fold"
      description :=
        "Inverts the point through a pair of spheres, " ++
          "scaling the derivative."
      category := "Folds"
      arity := .single
      inputs :=
        [ limited (radius 8)
            (input "min_radius" "Min Radius" 0 200 1 50)
        , limited (radius 16)
            (input "fixed_radius" "Fixed Radius"
              0 400 1 100) ]
      body := sphereFold.render }
  , { id := "abs_fold"
      name := "Abs Fold"
      description :=
        "Mirrors every axis, then shifts by an offset."
      category := "Folds"
      arity := .single
      inputs :=
        [ input "offset_x" "Offset X" (-200) 200 1 0
        , input "offset_y" "Offset Y" (-200) 200 1 0
        , input "offset_z" "Offset Z" (-200) 200 1 0 ]
      body := absFold.render }
  , { id := "menger_fold"
      name := "Menger Fold"
      description :=
        "Mirrors every axis and sorts components in " ++
          "descending order."
      category := "Folds"
      arity := .single
      inputs := []
      body := mengerFold.render } ]

------------------------------------------------------------
-- Transforms
------------------------------------------------------------

/- Kinds that move the point. -/
def transforms : List Kind :=
  [ { id := "rotate"
      name := "Rotate"
      description :=
        "Rotates the point about X, then Y, then Z " ++
          "(degrees)."
      category := "Transforms"
      arity := .single
      inputs :=
        [ input "angle_x" "Angle X" (-18000) 18000 50 0
        , input "angle_y" "Angle Y" (-18000) 18000 50 0
        , input "angle_z" "Angle Z" (-18000) 18000 50 0 ]
      body := rotate.render }
  , { id := "scale"
      name := "Scale"
      description :=
        "Uniformly scales the point and its running " ++
          "derivative."
      category := "Transforms"
      arity := .single
      inputs := [ input "scale" "Scale" (-400) 400 1 200 ]
      body := scale.render }
  , { id := "translate"
      name := "Translate"
      description := "Offsets the point."
      category := "Transforms"
      arity := .single
      inputs :=
        [ input "x" "X" (-400) 400 1 0
        , input "y" "Y" (-400) 400 1 0
        , input "z" "Z" (-400) 400 1 0 ]
      body := translate.render } ]

------------------------------------------------------------
-- Fractals
------------------------------------------------------------

/- Kinds that make one step of a known fractal. -/
def fractals : List Kind :=
  [ { id := "mandelbulb"
      name := "Mandelbulb"
      description :=
        "Spherical power map with derivative tracking."
      category := "Fractals"
      arity := .single
      inputs :=
        [ limited (between 100 3200)
            (input "power" "Power" 100 1600 10 800) ]
      body := mandelbulb.render }
  , { id := "menger_scale"
      name := "Menger Scale"
      description :=
        "Scales about an offset corner, as in the Menger " ++
          "sponge iteration."
      category := "Fractals"
      arity := .single
      inputs :=
        [ input "scale" "Scale" 100 400 1 300
        , input "offset" "Offset" 0 200 1 100 ]
      body := mengerScale.render } ]

------------------------------------------------------------
-- Combiners
------------------------------------------------------------

/- Kinds that join two branches. -/
def combiners : List Kind :=
  [ { id := "union"
      name := "Union"
      description :=
        "Keeps whichever branch has the smaller distance " ++
          "estimate."
      category := "Combiners"
      arity := .dual
      inputs := []
      body := (choose "<").render }
  , { id := "intersect"
      name := "Intersect"
      description :=
        "Keeps whichever branch has the larger distance " ++
          "estimate."
      category := "Combiners"
      arity := .dual
      inputs := []
      body := (choose ">").render }
  , { id := "blend"
      name := "Blend"
      description := "Linearly mixes the two branches."
      category := "Combiners"
      arity := .dual
      inputs :=
        [ limited (between 0 100)
            (input "mix" "Mix" 0 100 1 50) ]
      body := blend.render } ]

/- All built-in kinds. -/
def kinds : List Kind :=
  folds ++ transforms ++ fractals ++ combiners

end BuiltIn

------------------------------------------------------------
-- The Catalog
------------------------------------------------------------

/- The catalog of the built-in kinds. -/
def Catalog.builtIn : Catalog :=
  .ofKinds BuiltIn.kinds

end FractalShader
