import EnumStamp.Arena.NodeId
import EnumStamp.Json.Codec

set_option autoImplicit false

namespace EnumStamp

open Json (Codec)

def NodeId.codec : Codec NodeId :=
  Codec.word32.map NodeId.mk NodeId.raw

def NodeId.listCodec : Codec (List NodeId) :=
  .record (.last "nodes" (.list NodeId.codec))

end EnumStamp
