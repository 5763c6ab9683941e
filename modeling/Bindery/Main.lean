import Bindery.Triples

set_option autoImplicit false

def main : IO Unit := do
  IO.print Bindery.Triples.output
