/-! # The actor on the stage -/
namespace BlockStage

/-- Place, heading in degrees and scale of the actor. -/
structure Sprite where
  x : Float := 0
  y : Float := 0
  rotation : Float := 0
  scale : Float := 1

namespace Sprite

def home : Sprite := {}

instance : Inhabited Sprite := ⟨home⟩

def radiansPerDegree : Float := 0.017453292519943295

def heading (s : Sprite) : Float := s.rotation * radiansPerDegree

end Sprite

end BlockStage
