import ArithCompiler.Target.Basic

/-! # The bare target

Two registers and no arithmetic: it shows where constants go, and that an operation a target lacks
cannot be compiled.
-/

namespace ArithCompiler.Bare

def target : Target where
  registers := ["b0", "b1"]
  preamble := ["begin"]
  postamble := ["end"]
  load dst value := ["load " ++ dst ++ " " ++ value.toInt.repr]

end ArithCompiler.Bare
