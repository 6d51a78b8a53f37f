import LlvmDsdl.LSP.IndexConsistency

/-!
Contract: the cache directory as a map from paths to shards.

Owns: reading the shard of one path, which paths share a file, what any sequence of
writes leaves to be read, and exactly when that is what was written.
-/

namespace LlvmDsdl.LSP

/-- The shards of a sequence of writes, the last one of each path. -/
def latest (writes : List IndexFileShard) : List IndexFileShard :=
  writes.foldl
    (fun shards shard => shards.filter (fun other => other.filePath ≠ shard.filePath) ++ [shard]) []

end LlvmDsdl.LSP
