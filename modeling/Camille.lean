import Camille.Accesses
import Camille.Answers
import Camille.Canonical
import Camille.Client
import Camille.ErrorReports
import Camille.Host
import Camille.Independence
import Camille.Language
import Camille.LruCache
import Camille.Pace
import Camille.Partials
import Camille.Pipelining
import Camille.Pool
import Camille.Reads
import Camille.Recasing
import Camille.Refinement
import Camille.StartLineChecks
import Camille.Termination
import Camille.Truncation
import Camille.UriHosts
import Camille.WhiteSpace
