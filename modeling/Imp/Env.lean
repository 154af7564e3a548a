import Imp.Ordered

/-!
Environments: the values of the variables bound so far, in increasing order of their names. The
order makes an environment the only one with its bindings.
-/

namespace Imp

structure Env where
  bindings : List (String × Int32)
  sorted : Ordered.Sorted bindings
deriving DecidableEq

namespace Env

def empty : Env := ⟨[], List.Pairwise.nil⟩

instance : Inhabited Env := ⟨empty⟩

def get? (env : Env) (x : String) : Option Int32 :=
  env.bindings.lookup x

def set (env : Env) (x : String) (v : Int32) : Env :=
  ⟨Ordered.insert x v env.bindings, env.sorted.insert⟩

-- Sets a name to a value, and gives back the one that it had.
def replace (env : Env) (x : String) (v : Int32) : Option Int32 × Env :=
  let r := Ordered.replace x v env.bindings
  (r.1, ⟨r.2, Ordered.replace_snd ▸ env.sorted.insert⟩)

end Env

end Imp
