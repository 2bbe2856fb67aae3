import Zoekt.Go.Basic
import Zoekt.Go.Filepath
import Zoekt.Go.Match
import Zoekt.Go.FileSystem
import Zoekt.Indexserver.Basic
import Zoekt.Indexserver.Concurrent
import Zoekt.Indexserver.Refinement
import Zoekt.Indexserver.Handler
import Zoekt.Indexserver.Sweep
import Zoekt.Gitindex.Cache
import Zoekt.Go.Walk
import Zoekt.Gitindex.Repos
import Zoekt.Gitindex.IndexGitRepo
import Zoekt.Indexserver.Process
