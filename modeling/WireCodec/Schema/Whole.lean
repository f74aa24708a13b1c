import WireCodec.Schema.Decode
import WireCodec.Schema.Encode

/-!
# Whole inputs

One value as a byte string of its own. Decoding a whole input also refuses bytes
after the value, unless the settings allow them.
-/
namespace WireCodec.Schema

/-- The bytes of a value, from an encoder that has written nothing else. -/
def toBytes (s : Schema) (F : Format) (c : Config) (v : s.Val) : Except Error Bytes := do
  let e ← Encoder.withConfig F c
  match s.encode F v e with
  | .ok _ e => return e.buffer
  | .error err _ => throw err

/-- The value that the input begins with. Whether bytes may come after it is up to the settings. -/
def ofBytes (s : Schema) (F : Format) (c : Config) (bs : Bytes) : Except Error s.Val := do
  let d ← Decoder.withConfig F bs c
  match s.decode F d with
  | .ok v d =>
    if c.rejectTrailing then d.finish
    return v
  | .error err _ => throw err

end WireCodec.Schema
