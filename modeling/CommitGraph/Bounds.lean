namespace CommitGraph

def signedBound : Nat := 0x8000000000000000

def unsignedBound : Nat := 0x10000000000000000

end CommitGraph
