import GapText.Code.Decode

/-!
# Text from outside

Bytes that come from a file or from the user need not be text at all. `ofExternal` brings them into
the internal form: a shortest UTF-8 sequence of a Unicode code stays as it is, and every byte that
is not part of one becomes the character of that raw byte. Nothing is lost on the way.
-/

namespace GapText

namespace Code

/-- The internal form of outside bytes. -/
def ofExternal : Bytes → Bytes
  | [] => []
  | b :: rest =>
    let d := decode (b :: rest)
    if d.code ≤ maxUnicode ∧ d.length = formLength d.code then
      b :: rest.take (d.length - 1) ++ ofExternal (rest.drop (d.length - 1))
    else form (ofRaw b) ++ ofExternal rest
termination_by s => s.length
decreasing_by all_goals simp only [List.length_drop, List.length_cons]; omega

end Code

end GapText
