import Extremal.Graph.Cid
import Extremal.Types.Json

namespace GraphCid

variable (hex : Hex)

def toHex (cid : GraphCid) : String :=
  hex.encode cid.bytes

def fromHex (s : String) : Option GraphCid :=
  hex.decode s |>.bind fun bytes => if h : bytes.length = 32 then some ⟨bytes, h⟩ else none

end GraphCid
