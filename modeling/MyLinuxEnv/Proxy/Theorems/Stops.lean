import MyLinuxEnv.Proxy.Theorems.Progress

namespace Proxy

variable {env : Env} {σ σ' : State} {n : Net} {a b : Addr} {p : Port} {ev : Event}

section Failures

end Failures

namespace Settled

end Settled

end Proxy
