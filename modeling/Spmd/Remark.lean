import Spmd.Id

/-!
# Remarks

What a vectorizer tells about its attempts.
-/

namespace Spmd

inductive RemarkKind where
  /-- Nothing was changed. -/
  | missed
  /-- A kernel was vectorized. -/
  | passed
  /-- Something was found out. -/
  | analysis
deriving DecidableEq, Repr

namespace RemarkKind

def all : List RemarkKind := [missed, passed, analysis]

def text : RemarkKind → String
  | missed => "missed"
  | passed => "passed"
  | analysis => "analysis"

def ofText? (s : String) : Option RemarkKind := all.find? (·.text == s)

/-- How urgent a remark of this kind is in a log. -/
def level : RemarkKind → String
  | missed => "WARN"
  | passed => "INFO"
  | analysis => "DEBUG"

end RemarkKind

structure Remark where
  kind : RemarkKind
  kernel : String
  /-- The instruction that the remark is about. -/
  inst : Option InstId := none
  message : String
deriving DecidableEq

def Remark.text (r : Remark) : String :=
  "[" ++ r.kind.text ++ "] @" ++ r.kernel ++ (r.inst.map fun i => " inst " ++ i.text).getD "" ++ ": " ++ r.message

end Spmd
