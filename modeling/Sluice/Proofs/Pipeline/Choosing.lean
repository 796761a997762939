import Sluice.Proofs.Pipeline.Ends

/-! The choice of slots. Where slots are left open the first pair that could have been asked for is
linked. The search for it looks at flows and room only; that it cannot come upon two connectors that
are linked already is due to inputs, which take one link and are full with it. -/

namespace Sluice

namespace Pipeline

variable {p : Pipeline}

def Agrees (asked : Option Int) (slot : Nat) : Prop :=
  ∀ i ∈ asked, i = slot

namespace Sound

variable (h : p.Sound) (named : p.Named)
include h named

end Sound

namespace Sound

variable (h : p.Sound) (named : p.Named)
include h named

end Sound

end Pipeline

end Sluice
