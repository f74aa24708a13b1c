import WireCodec.Schema.Basic

/-!
# Drawings

A schema with records and enumerations: a drawing holds shapes and named
attachments. A shape is a point, a circle with its radius, or a label with its
text and an optional weight.
-/
namespace WireCodec.Schema

def bool : Schema := scalar .bool
def char : Schema := scalar .char
def text : Schema := scalar .text
def blob : Schema := scalar .blob

def shape : Schema :=
  framed (choice 3 fun
    | 0 => scalar .unit
    | 1 => scalar (.float .double)
    | 2 => pair text (option (scalar (.uint .w32))))

def drawing : Schema :=
  framed
    (pair (scalar (.uint .w128)) (pair (scalar (.int .w128)) (pair text (pair char
      (pair (seq shape) (pair (map .ascending text blob) bool))))))

end WireCodec.Schema
