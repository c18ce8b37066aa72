import Knp.SurfaceCase

/-!
# Lists of features as bytes (`feature.c`)

The functions on a list of features where the texts are made and read by `sprintf` and
`sscanf`. The buffer for the name of a feature is taken to be long enough.
-/

namespace Knp.FeatureBytes

/-- `comp_feature` -/
def comp (data pattern : List UInt8) : Bool :=
  data = pattern || (pattern ++ [58]).isPrefixOf data

/-- `check_feature`, as a condition. -/
def has (fp : List (List UInt8)) (fname : List UInt8) : Bool := fp.any (comp · fname)

/-- `delete_cfeature` -/
def deleteCfeature (fp : List (List UInt8)) (type : List UInt8) : List (List UInt8) :=
  fp.eraseP (comp · type)

def isAlt (cp : List UInt8) : Bool := (utf8 "ALT-").isPrefixOf cp

/-- `delete_alt_feature` -/
def deleteAlt (fp : List (List UInt8)) : List (List UInt8) := fp.filter (!isAlt ·)

/-- `feature_buffer` after the reading of the name; `found` is what it held. -/
def scanName (found fname : List UInt8) : List UInt8 :=
  -- sscanf stores nothing if there is no character in front of the colon
  let buffer := if fname.takeWhile (· ≠ 58) = [] then found else fname.takeWhile (· ≠ 58)
  -- quote('"')中の":"で切っていれば、もとに戻す
  if buffer ≠ fname ∧ buffer.count 34 % 2 = 1 then fname else buffer

def overwrite (p : List UInt8 → Bool) (fname : List UInt8) : List (List UInt8) → List (List UInt8)
  -- 上書きできなければ末尾に追加
  | [] => [fname]
  | cp :: fp => if p cp then fname :: fp else cp :: overwrite p fname fp

/-- `assign_cfeature`, where the feature is not temporary: the buffer and the list after it. -/
def assignCfeature (found fname : List UInt8) (fp : List (List UInt8)) :
    List UInt8 × List (List UInt8) :=
  (scanName found fname, overwrite (comp · (scanName found fname)) fname fp)

/-- `strstr`: the text from the first place on where `pattern` stands. -/
def strstr (s pattern : List UInt8) : Option (List UInt8) := s.tails.find? pattern.isPrefixOf

end Knp.FeatureBytes
